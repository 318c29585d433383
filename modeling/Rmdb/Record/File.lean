import Rmdb.Common.Compare
import Rmdb.Common.Defs
import Mathlib.Logic.Function.Basic

/-!
# Record files

`RmFileHandle`: a table's heap file. Page `0` is the file header; the pages from
`RM_FIRST_RECORD_PAGE` on hold records in numbered slots, with a bitmap of the slots in
use and a count of them. The pages with room are linked in a list that starts in the
file header.

A page is modelled by its header and its slots: slot `i` is `none` when bit `i` of the
bitmap is clear, and holds the record's bytes otherwise (the bytes under a clear bit are
never read). The buffer pool is transparent. The disk manager's counter for the file is
`num_pages`: opening the file sets it so, and the two advance together.

An exception of the source is an `Except` error, a failed assertion among them.
-/

namespace Rmdb.Record

/-- `RM_NO_PAGE`. -/
def RM_NO_PAGE : ℤ := -1

/-- `RM_FIRST_RECORD_PAGE`. -/
def RM_FIRST_RECORD_PAGE : ℤ := 1

/-- `RM_MAX_RECORD_SIZE`. -/
def RM_MAX_RECORD_SIZE : ℤ := 512

/-- `PAGE_SIZE`. -/
def PAGE_SIZE : ℤ := 4096

/-- `BITMAP_WIDTH`. -/
def BITMAP_WIDTH : ℤ := 8

/-- The size of `RmFileHdr`: five ints. -/
def sizeofRmFileHdr : ℤ := 20

/-- The exceptions of the record manager. -/
inductive RmError where
  /-- `RecordNotFoundError(page_no, slot_no)`. -/
  | recordNotFound (pageNo slotNo : ℤ)
  /-- `PageNotExistError(file, page_no)`. -/
  | pageNotExist (pageNo : ℤ)
  /-- `InvalidRecordSizeError(record_size)`. -/
  | invalidRecordSize (recordSize : ℤ)
  /-- A failed assertion. -/
  | assertion
deriving DecidableEq

/-- A record page: `RmPageHdr` and the slots. -/
structure RmPage where
  /-- `next_free_page_no`. -/
  nextFreePageNo : ℤ
  /-- `num_records`. -/
  numRecords : ℤ
  /-- The bitmap and the slots. -/
  slots : List (Option Bytes)
deriving DecidableEq

/-- `RmFileHandle` with its `RmFileHdr` and its pages. -/
structure RmFileHandle where
  /-- `num_pages`. -/
  numPages : ℤ
  /-- `num_records_per_page`. -/
  numRecordsPerPage : ℕ
  /-- `first_free_page_no`. -/
  firstFreePageNo : ℤ
  /-- The record pages. -/
  pages : ℤ → RmPage

namespace RmFileHandle

/-- `RmManager::create_file` followed by `open_file`: a file without record pages. -/
def createFile (recordSize : ℤ) : Except RmError RmFileHandle :=
  if recordSize < 1 ∨ RM_MAX_RECORD_SIZE < recordSize then .error (.invalidRecordSize recordSize)
  else .ok {
    numPages := 1
    firstFreePageNo := RM_NO_PAGE
    numRecordsPerPage := ((BITMAP_WIDTH * (PAGE_SIZE - 1 - sizeofRmFileHdr) + 1) / (1 + recordSize * BITMAP_WIDTH)).toNat
    pages := fun _ => ⟨0, 0, []⟩ }

/-- The record in a slot of a page: the test of the bounds and of `Bitmap::is_set`, and the bytes. -/
def slot (f : RmFileHandle) (page : RmPage) (slotNo : ℤ) : Option Bytes :=
  if 0 ≤ slotNo ∧ slotNo < f.numRecordsPerPage then (page.slots[slotNo.toNat]?).join else none

/-- Write a page. -/
def setPage (f : RmFileHandle) (pageNo : ℤ) (page : RmPage) : RmFileHandle :=
  { f with pages := Function.update f.pages pageNo page }

/-- `fetch_page_handle`. -/
def fetchPageHandle (f : RmFileHandle) (pageNo : ℤ) : Except RmError RmPage :=
  if pageNo < RM_FIRST_RECORD_PAGE ∨ f.numPages ≤ pageNo then .error (.pageNotExist pageNo) else .ok (f.pages pageNo)

/-- `get_record`. -/
def getRecord (f : RmFileHandle) (rid : Rid) : Except RmError Bytes := do
  let page ← f.fetchPageHandle rid.pageNo
  match f.slot page rid.slotNo with
  | none => .error (.recordNotFound rid.pageNo rid.slotNo)
  | some record => .ok record

/-- `create_new_page_handle`: an empty page, at the head of the list of pages with room. -/
def createNewPageHandle (f : RmFileHandle) : RmFileHandle × ℤ :=
  ({ f with
      numPages := f.numPages + 1
      firstFreePageNo := f.numPages
      pages := Function.update f.pages f.numPages ⟨f.firstFreePageNo, 0, List.replicate f.numRecordsPerPage none⟩ },
    f.numPages)

/-- `create_page_handle`: the first page with room, or a new one. -/
def createPageHandle (f : RmFileHandle) : Except RmError (RmFileHandle × ℤ) :=
  if f.firstFreePageNo = RM_NO_PAGE then .ok f.createNewPageHandle
  else do
    let _ ← f.fetchPageHandle f.firstFreePageNo
    .ok (f, f.firstFreePageNo)

/-- `insert_record(buf)`. -/
def insertRecord (f : RmFileHandle) (buf : Bytes) : Except RmError (RmFileHandle × Rid) := do
  let (f, pageNo) ← f.createPageHandle
  let page := f.pages pageNo
  let slotNo := page.slots.findIdx (·.isNone)
  if slotNo < f.numRecordsPerPage then
    let page : RmPage := { page with slots := page.slots.set slotNo (some buf), numRecords := page.numRecords + 1 }
    if page.numRecords = (f.numRecordsPerPage : ℤ) then
      .ok (({ f with firstFreePageNo := page.nextFreePageNo }).setPage pageNo { page with nextFreePageNo := RM_NO_PAGE },
        ⟨pageNo, slotNo⟩)
    else .ok (f.setPage pageNo page, ⟨pageNo, slotNo⟩)
  else .error .assertion

/-- The loop of `insert_record(rid, buf)` that creates the missing pages. -/
def createPages : ℕ → RmFileHandle → RmFileHandle
  | 0, f => f
  | n + 1, f => createPages n f.createNewPageHandle.1

/-- `insert_record(rid, buf)`. -/
def insertRecordAt (f : RmFileHandle) (rid : Rid) (buf : Bytes) : Except RmError RmFileHandle := do
  let f := createPages (rid.pageNo + 1 - f.numPages).toNat f
  let page ← f.fetchPageHandle rid.pageNo
  if rid.slotNo < 0 ∨ f.numRecordsPerPage ≤ rid.slotNo then .error (.recordNotFound rid.pageNo rid.slotNo)
  else if (f.slot page rid.slotNo).isNone then
    let page : RmPage := { page with slots := page.slots.set rid.slotNo.toNat (some buf), numRecords := page.numRecords + 1 }
    if page.numRecords = (f.numRecordsPerPage : ℤ) then
      let firstFreePageNo := if f.firstFreePageNo = rid.pageNo then page.nextFreePageNo else f.firstFreePageNo
      .ok (({ f with firstFreePageNo := firstFreePageNo }).setPage rid.pageNo { page with nextFreePageNo := RM_NO_PAGE })
    else .ok (f.setPage rid.pageNo page)
  else .ok f

/-- `delete_record`. -/
def deleteRecord (f : RmFileHandle) (rid : Rid) : Except RmError RmFileHandle := do
  let page ← f.fetchPageHandle rid.pageNo
  match f.slot page rid.slotNo with
  | none => .error (.recordNotFound rid.pageNo rid.slotNo)
  | some _ =>
    let wasFull : Bool := page.numRecords = f.numRecordsPerPage
    let page : RmPage := { page with slots := page.slots.set rid.slotNo.toNat none, numRecords := page.numRecords - 1 }
    -- `release_page_handle`: a page that was full goes to the head of the list
    if wasFull then
      .ok (({ f with firstFreePageNo := rid.pageNo }).setPage rid.pageNo { page with nextFreePageNo := f.firstFreePageNo })
    else .ok (f.setPage rid.pageNo page)

/-- `update_record`. -/
def updateRecord (f : RmFileHandle) (rid : Rid) (buf : Bytes) : Except RmError RmFileHandle := do
  let page ← f.fetchPageHandle rid.pageNo
  match f.slot page rid.slotNo with
  | none => .error (.recordNotFound rid.pageNo rid.slotNo)
  | some _ => .ok (f.setPage rid.pageNo { page with slots := page.slots.set rid.slotNo.toNat (some buf) })

/-- One round of the loop of `rebuild_free_page_list`. -/
def relinkPage (f : RmFileHandle) (pageNo : ℤ) : RmFileHandle :=
  let page := f.pages pageNo
  if page.numRecords < f.numRecordsPerPage then
    ({ f with firstFreePageNo := pageNo }).setPage pageNo { page with nextFreePageNo := f.firstFreePageNo }
  else f.setPage pageNo { page with nextFreePageNo := RM_NO_PAGE }

/-- `rebuild_free_page_list`. -/
def rebuildFreePageList (f : RmFileHandle) : RmFileHandle :=
  (List.range (f.numPages - RM_FIRST_RECORD_PAGE).toNat).foldl
    (fun f (i : ℕ) => f.relinkPage (RM_FIRST_RECORD_PAGE + i)) { f with firstFreePageNo := RM_NO_PAGE }

/-- The record under a rid, if there is one: what a scan of the file finds. -/
def records (f : RmFileHandle) (rid : Rid) : Option Bytes :=
  if RM_FIRST_RECORD_PAGE ≤ rid.pageNo ∧ rid.pageNo < f.numPages then f.slot (f.pages rid.pageNo) rid.slotNo else none

/-! ### Pages -/

/-- What a page stores, without its link: the count and the slots. -/
def cells (f : RmFileHandle) (pageNo : ℤ) : ℤ × List (Option Bytes) := ((f.pages pageNo).numRecords, (f.pages pageNo).slots)

/-- A page of `n` slots counts its records. -/
structure CellOk (n : ℕ) (c : ℤ × List (Option Bytes)) : Prop where
  length : c.2.length = n
  count : c.1 = c.2.countP (·.isSome)

theorem CellOk.le {n : ℕ} {c : ℤ × List (Option Bytes)} (h : CellOk n c) : c.1 ≤ n := by
  have := List.countP_le_length (p := fun o : Option Bytes => o.isSome) (l := c.2)
  have h1 := h.length
  have h2 := h.count
  omega

/-- A page with a free slot is not full. -/
theorem CellOk.lt_of_free {n : ℕ} {c : ℤ × List (Option Bytes)} (h : CellOk n c) {s : ℕ} (hs : c.2[s]? = some none) :
    c.1 < n := by
  have hmem : none ∈ c.2 := List.mem_of_getElem? hs
  have hlt : c.2.countP (·.isSome) < c.2.length := by
    refine lt_of_le_of_ne List.countP_le_length ?_
    intro heq
    have := List.countP_eq_length.mp heq none hmem
    simp at this
  have h1 := h.length
  have h2 := h.count
  omega

/-- A page that is not full has a free slot, and the search finds it. -/
theorem CellOk.findIdx_free {n : ℕ} {c : ℤ × List (Option Bytes)} (h : CellOk n c) (hlt : c.1 < n) :
    c.2.findIdx (·.isNone) < n ∧ c.2[c.2.findIdx (·.isNone)]? = some none := by
  have hex : ∃ o ∈ c.2, o.isNone = true := by
    by_contra hno
    have hall : ∀ o ∈ c.2, o.isSome = true := fun o ho => by
      cases o with
      | none => exact absurd ⟨none, ho, rfl⟩ hno
      | some _ => rfl
    have := List.countP_eq_length (p := fun o : Option Bytes => o.isSome).mpr hall
    have h1 := h.length
    have h2 := h.count
    omega
  have hidx : c.2.findIdx (·.isNone) < c.2.length := List.findIdx_lt_length_of_exists hex
  refine ⟨by rw [← h.length]; exact hidx, ?_⟩
  have hnone := List.findIdx_getElem (p := fun o : Option Bytes => o.isNone) (w := hidx)
  rw [List.getElem?_eq_getElem hidx, Option.some.injEq]
  exact Option.isNone_iff_eq_none.mp hnone

theorem CellOk.put {n : ℕ} {c : ℤ × List (Option Bytes)} (h : CellOk n c) {s : ℕ} (hs : c.2[s]? = some none)
    (b : Bytes) : CellOk n (c.1 + 1, c.2.set s (some b)) := by
  obtain ⟨hlt, hget⟩ := List.getElem?_eq_some_iff.mp hs
  refine ⟨by simp [h.length], ?_⟩
  have hc := List.countP_set (p := fun o : Option Bytes => o.isSome) (a := some b) hlt
  simp only [hget] at hc
  have h2 := h.count
  simp only [hc]
  simp
  exact h2

theorem CellOk.take {n : ℕ} {c : ℤ × List (Option Bytes)} (h : CellOk n c) {s : ℕ} {r : Bytes}
    (hs : c.2[s]? = some (some r)) : CellOk n (c.1 - 1, c.2.set s none) := by
  obtain ⟨hlt, hget⟩ := List.getElem?_eq_some_iff.mp hs
  refine ⟨by simp [h.length], ?_⟩
  have hc := List.countP_set (p := fun o : Option Bytes => o.isSome) (a := none) hlt
  have hpos : 0 < c.2.countP (·.isSome) :=
    List.countP_pos_iff.mpr ⟨some r, List.mem_of_getElem? hs, rfl⟩
  simp only [hget] at hc
  have h2 := h.count
  simp only [hc]
  simp
  omega

theorem CellOk.write {n : ℕ} {c : ℤ × List (Option Bytes)} (h : CellOk n c) {s : ℕ} {r : Bytes}
    (hs : c.2[s]? = some (some r)) (b : Bytes) : CellOk n (c.1, c.2.set s (some b)) := by
  obtain ⟨hlt, hget⟩ := List.getElem?_eq_some_iff.mp hs
  refine ⟨by simp [h.length], ?_⟩
  have hc := List.countP_set (p := fun o : Option Bytes => o.isSome) (a := some b) hlt
  have hpos : 0 < c.2.countP (·.isSome) :=
    List.countP_pos_iff.mpr ⟨some r, List.mem_of_getElem? hs, rfl⟩
  simp only [hget] at hc
  have h2 := h.count
  simp only [hc]
  simp
  omega

/-! ### What the operations do to the slots -/

/-- The rid of a slot of the file. -/
structure InFile (f : RmFileHandle) (rid : Rid) : Prop where
  first : RM_FIRST_RECORD_PAGE ≤ rid.pageNo
  last : rid.pageNo < f.numPages
  low : 0 ≤ rid.slotNo
  high : rid.slotNo < f.numRecordsPerPage

instance (f : RmFileHandle) (rid : Rid) : Decidable (f.InFile rid) :=
  decidable_of_iff (RM_FIRST_RECORD_PAGE ≤ rid.pageNo ∧ rid.pageNo < f.numPages ∧ 0 ≤ rid.slotNo ∧
    rid.slotNo < f.numRecordsPerPage) ⟨fun h => ⟨h.1, h.2.1, h.2.2.1, h.2.2.2⟩, fun h => ⟨h.1, h.2, h.3, h.4⟩⟩

theorem records_eq (f : RmFileHandle) (rid : Rid) :
    f.records rid = if f.InFile rid then ((f.cells rid.pageNo).2[rid.slotNo.toNat]?).join else none := by
  unfold records slot cells
  by_cases h1 : RM_FIRST_RECORD_PAGE ≤ rid.pageNo ∧ rid.pageNo < f.numPages
  · by_cases h2 : 0 ≤ rid.slotNo ∧ rid.slotNo < f.numRecordsPerPage
    · rw [if_pos h1, if_pos h2, if_pos ⟨h1.1, h1.2, h2.1, h2.2⟩]
    · rw [if_pos h1, if_neg h2, if_neg fun h => h2 ⟨h.low, h.high⟩]
  · rw [if_neg h1, if_neg fun h => h1 ⟨h.first, h.last⟩]

theorem inFile_of_records {f : RmFileHandle} {rid : Rid} {r : Bytes} (h : f.records rid = some r) : f.InFile rid := by
  rw [records_eq] at h
  by_contra hno
  rw [if_neg hno] at h
  cases h

theorem slot_eq_records {f : RmFileHandle} {rid : Rid} (h : f.InFile rid) :
    f.slot (f.pages rid.pageNo) rid.slotNo = f.records rid := by
  unfold records
  rw [if_pos ⟨h.first, h.last⟩]

theorem fetchPageHandle_eq {f : RmFileHandle} {rid : Rid} (h : f.InFile rid) :
    f.fetchPageHandle rid.pageNo = .ok (f.pages rid.pageNo) := by
  have h1 := h.first
  have h2 := h.last
  unfold fetchPageHandle
  rw [if_neg (by omega)]

/-- Every page of the file counts its records. -/
def PagesOk (f : RmFileHandle) : Prop :=
  ∀ p, RM_FIRST_RECORD_PAGE ≤ p → p < f.numPages → CellOk f.numRecordsPerPage (f.cells p)

theorem PagesOk.getElem? {f : RmFileHandle} (h : f.PagesOk) {rid : Rid} (hin : f.InFile rid) :
    (f.cells rid.pageNo).2[rid.slotNo.toNat]? = some (f.records rid) := by
  have hlen := (h rid.pageNo hin.first hin.last).length
  have h1 := hin.low
  have h2 := hin.high
  have hlt : rid.slotNo.toNat < (f.cells rid.pageNo).2.length := by omega
  rw [records_eq, if_pos hin, List.getElem?_eq_getElem hlt]
  rfl

/-- `put`: the result of both forms of `insert_record` once the slot is known. -/
def put (f : RmFileHandle) (rid : Rid) (buf : Bytes) : RmFileHandle :=
  let page := f.pages rid.pageNo
  let page : RmPage := { page with slots := page.slots.set rid.slotNo.toNat (some buf), numRecords := page.numRecords + 1 }
  if page.numRecords = (f.numRecordsPerPage : ℤ) then
    ({ f with firstFreePageNo := if f.firstFreePageNo = rid.pageNo then page.nextFreePageNo else f.firstFreePageNo }).setPage
      rid.pageNo { page with nextFreePageNo := RM_NO_PAGE }
  else f.setPage rid.pageNo page

/-- `take`: the result of `delete_record`. -/
def take (f : RmFileHandle) (rid : Rid) : RmFileHandle :=
  let page := f.pages rid.pageNo
  let page' : RmPage := { page with slots := page.slots.set rid.slotNo.toNat none, numRecords := page.numRecords - 1 }
  if page.numRecords = (f.numRecordsPerPage : ℤ) then
    ({ f with firstFreePageNo := rid.pageNo }).setPage rid.pageNo { page' with nextFreePageNo := f.firstFreePageNo }
  else f.setPage rid.pageNo page'

/-- `write`: the result of `update_record`. -/
def write (f : RmFileHandle) (rid : Rid) (buf : Bytes) : RmFileHandle :=
  f.setPage rid.pageNo { f.pages rid.pageNo with slots := (f.pages rid.pageNo).slots.set rid.slotNo.toNat (some buf) }

theorem getRecord_eq {f : RmFileHandle} {rid : Rid} {r : Bytes} (h : f.records rid = some r) : f.getRecord rid = .ok r := by
  have hin := inFile_of_records h
  unfold getRecord
  rw [fetchPageHandle_eq hin]
  simp only [bind, Except.bind, slot_eq_records hin, h]

theorem records_of_getRecord {f : RmFileHandle} {rid : Rid} {r : Bytes} (h : f.getRecord rid = .ok r) :
    f.records rid = some r := by
  unfold getRecord fetchPageHandle at h
  unfold records
  by_cases hp : rid.pageNo < RM_FIRST_RECORD_PAGE ∨ f.numPages ≤ rid.pageNo
  · rw [if_pos hp] at h
    cases h
  · rw [if_neg hp] at h
    rw [if_pos (by omega)]
    simp only [bind, Except.bind] at h
    cases hs : f.slot (f.pages rid.pageNo) rid.slotNo with
    | none => rw [hs] at h; cases h
    | some r' =>
      rw [hs] at h
      rw [Except.ok.inj h]

theorem deleteRecord_eq {f : RmFileHandle} {rid : Rid} {r : Bytes} (h : f.records rid = some r) :
    f.deleteRecord rid = .ok (f.take rid) := by
  have hin := inFile_of_records h
  unfold deleteRecord take
  rw [fetchPageHandle_eq hin]
  simp only [bind, Except.bind, slot_eq_records hin, h, decide_eq_true_eq]
  split <;> rfl

theorem updateRecord_eq {f : RmFileHandle} {rid : Rid} {r : Bytes} (h : f.records rid = some r) (buf : Bytes) :
    f.updateRecord rid buf = .ok (f.write rid buf) := by
  have hin := inFile_of_records h
  unfold updateRecord write
  rw [fetchPageHandle_eq hin]
  simp only [bind, Except.bind, slot_eq_records hin, h]

theorem insertRecordAt_eq {f : RmFileHandle} {rid : Rid} (hin : f.InFile rid) (h : f.records rid = none) (buf : Bytes) :
    f.insertRecordAt rid buf = .ok (f.put rid buf) := by
  have h1 := hin.last
  have h2 := hin.low
  have h3 := hin.high
  unfold insertRecordAt put
  rw [show (rid.pageNo + 1 - f.numPages).toNat = 0 by omega]
  simp only [createPages, fetchPageHandle_eq hin, bind, Except.bind, slot_eq_records hin, h, Option.isNone_none, if_true]
  rw [if_neg (by omega)]
  exact (apply_ite Except.ok _ _ _).symm

theorem cells_setPage (f : RmFileHandle) (p : ℤ) (page : RmPage) :
    (f.setPage p page).cells = Function.update f.cells p (page.numRecords, page.slots) := by
  funext q
  unfold cells setPage
  by_cases hq : q = p
  · subst hq
    simp
  · simp [hq]

theorem cells_put (f : RmFileHandle) (rid : Rid) (buf : Bytes) :
    (f.put rid buf).cells = Function.update f.cells rid.pageNo
      ((f.cells rid.pageNo).1 + 1, (f.cells rid.pageNo).2.set rid.slotNo.toNat (some buf)) := by
  unfold put
  simp only
  split <;> rw [cells_setPage] <;> rfl

theorem cells_take (f : RmFileHandle) (rid : Rid) :
    (f.take rid).cells = Function.update f.cells rid.pageNo
      ((f.cells rid.pageNo).1 - 1, (f.cells rid.pageNo).2.set rid.slotNo.toNat none) := by
  unfold take
  simp only
  split <;> rw [cells_setPage] <;> rfl

theorem cells_write (f : RmFileHandle) (rid : Rid) (buf : Bytes) :
    (f.write rid buf).cells = Function.update f.cells rid.pageNo
      ((f.cells rid.pageNo).1, (f.cells rid.pageNo).2.set rid.slotNo.toNat (some buf)) :=
  cells_setPage _ _ _

@[simp] theorem put_numPages (f : RmFileHandle) (rid : Rid) (buf : Bytes) : (f.put rid buf).numPages = f.numPages := by
  unfold put
  simp only
  split <;> rfl

@[simp] theorem put_numRecordsPerPage (f : RmFileHandle) (rid : Rid) (buf : Bytes) :
    (f.put rid buf).numRecordsPerPage = f.numRecordsPerPage := by
  unfold put
  simp only
  split <;> rfl

@[simp] theorem take_numPages (f : RmFileHandle) (rid : Rid) : (f.take rid).numPages = f.numPages := by
  unfold take
  simp only
  split <;> rfl

@[simp] theorem take_numRecordsPerPage (f : RmFileHandle) (rid : Rid) :
    (f.take rid).numRecordsPerPage = f.numRecordsPerPage := by
  unfold take
  simp only
  split <;> rfl

@[simp] theorem write_numPages (f : RmFileHandle) (rid : Rid) (buf : Bytes) :
    (f.write rid buf).numPages = f.numPages := rfl

@[simp] theorem write_numRecordsPerPage (f : RmFileHandle) (rid : Rid) (buf : Bytes) :
    (f.write rid buf).numRecordsPerPage = f.numRecordsPerPage := rfl

/-- A change of one slot changes one record. -/
theorem records_set {f f' : RmFileHandle} {rid : Rid} {n : ℤ} {o : Option Bytes} (hok : f.PagesOk) (hin : f.InFile rid)
    (hnum : f'.numPages = f.numPages) (hper : f'.numRecordsPerPage = f.numRecordsPerPage)
    (hcells : f'.cells = Function.update f.cells rid.pageNo (n, (f.cells rid.pageNo).2.set rid.slotNo.toNat o)) :
    f'.records = Function.update f.records rid o := by
  funext x
  have hinx : f'.InFile x ↔ f.InFile x :=
    ⟨fun h => ⟨h.first, hnum ▸ h.last, h.low, hper ▸ h.high⟩, fun h => ⟨h.first, hnum ▸ h.last, h.low, hper ▸ h.high⟩⟩
  have hlen := (hok rid.pageNo hin.first hin.last).length
  have hlow := hin.low
  have hhigh := hin.high
  have hlt : rid.slotNo.toNat < (f.cells rid.pageNo).2.length := by omega
  by_cases hx : x = rid
  · subst hx
    rw [records_eq, if_pos (hinx.mpr hin), hcells, Function.update_self, Function.update_self]
    simp [hlt]
  · rw [Function.update_of_ne hx, records_eq, records_eq]
    by_cases hxin : f.InFile x
    · rw [if_pos (hinx.mpr hxin), if_pos hxin, hcells]
      by_cases hp : x.pageNo = rid.pageNo
      · have hs : rid.slotNo.toNat ≠ x.slotNo.toNat := by
          intro heq
          have := hxin.low
          refine hx ?_
          obtain ⟨p, s⟩ := x
          obtain ⟨p', s'⟩ := rid
          simp only at hp heq hlow this
          rw [hp, show s = s' by omega]
        rw [hp, Function.update_self, List.getElem?_set_ne hs]
      · rw [Function.update_of_ne hp]
    · rw [if_neg (mt hinx.mp hxin), if_neg hxin]

section Specs

variable {f : RmFileHandle} {rid : Rid} {r : Bytes} (hok : f.PagesOk)
include hok

theorem records_put (hin : f.InFile rid) (buf : Bytes) :
    (f.put rid buf).records = Function.update f.records rid (some buf) :=
  records_set hok hin (put_numPages ..) (put_numRecordsPerPage ..) (cells_put ..)

theorem records_take (hin : f.InFile rid) : (f.take rid).records = Function.update f.records rid none :=
  records_set hok hin (take_numPages ..) (take_numRecordsPerPage ..) (cells_take ..)

theorem records_write (hin : f.InFile rid) (buf : Bytes) :
    (f.write rid buf).records = Function.update f.records rid (some buf) :=
  records_set hok hin rfl rfl (cells_write ..)

theorem PagesOk.put (hin : f.InFile rid) (h : f.records rid = none) (buf : Bytes) : (f.put rid buf).PagesOk := by
  intro p h1 h2
  rw [put_numPages] at h2
  rw [put_numRecordsPerPage, cells_put]
  by_cases hp : p = rid.pageNo
  · subst hp
    rw [Function.update_self]
    exact (hok _ h1 h2).put (by rw [hok.getElem? hin, h]) buf
  · rw [Function.update_of_ne hp]
    exact hok p h1 h2

theorem PagesOk.take (h : f.records rid = some r) : (f.take rid).PagesOk := by
  intro p h1 h2
  rw [take_numPages] at h2
  rw [take_numRecordsPerPage, cells_take]
  by_cases hp : p = rid.pageNo
  · subst hp
    rw [Function.update_self]
    exact (hok _ h1 h2).take (by rw [hok.getElem? (inFile_of_records h), h])
  · rw [Function.update_of_ne hp]
    exact hok p h1 h2

theorem PagesOk.write (h : f.records rid = some r) (buf : Bytes) : (f.write rid buf).PagesOk := by
  intro p h1 h2
  rw [write_numRecordsPerPage, cells_write]
  by_cases hp : p = rid.pageNo
  · subst hp
    rw [Function.update_self]
    exact (hok _ h1 h2).write (by rw [hok.getElem? (inFile_of_records h), h]) buf
  · rw [Function.update_of_ne hp]
    exact hok p h1 h2

end Specs

/-! ### New pages, and the rebuilt list -/

theorem createNewPageHandle_spec {f : RmFileHandle} (h : f.PagesOk) :
    f.createNewPageHandle.1.PagesOk ∧ f.createNewPageHandle.1.records = f.records := by
  constructor
  · intro p hp hp'
    by_cases hpn : p = f.numPages
    · subst hpn
      exact ⟨by simp [createNewPageHandle, cells], by simp [createNewPageHandle, cells, List.countP_replicate]⟩
    · simp only [createNewPageHandle] at hp' ⊢
      have := h p hp (by omega)
      simpa [cells, hpn] using this
  · funext rid
    unfold records slot createNewPageHandle
    by_cases hpn : rid.pageNo = f.numPages
    · -- the new page is empty
      simp only [hpn, Function.update_self]
      have hnone : ((List.replicate f.numRecordsPerPage none : List (Option Bytes))[rid.slotNo.toNat]?).join = none := by
        cases hg : (List.replicate f.numRecordsPerPage none : List (Option Bytes))[rid.slotNo.toNat]? with
        | none => rfl
        | some o => rw [List.eq_of_mem_replicate (List.mem_of_getElem? hg)]; rfl
      rw [hnone]
      simp
    · simp only [Function.update_of_ne hpn]
      by_cases hp : RM_FIRST_RECORD_PAGE ≤ rid.pageNo ∧ rid.pageNo < f.numPages
      · rw [if_pos hp, if_pos ⟨hp.1, by omega⟩]
      · rw [if_neg hp, if_neg (by omega)]

theorem createPages_spec : ∀ (n : ℕ) {f : RmFileHandle}, f.PagesOk →
    (createPages n f).PagesOk ∧ (createPages n f).records = f.records ∧ (createPages n f).numPages = f.numPages + n ∧
      (createPages n f).numRecordsPerPage = f.numRecordsPerPage
  | 0, f, h => ⟨h, rfl, by simp [createPages], rfl⟩
  | n + 1, f, h => by
    obtain ⟨h1, h2⟩ := createNewPageHandle_spec h
    obtain ⟨h3, h4, h5, h6⟩ := createPages_spec n h1
    refine ⟨h3, h4.trans h2, ?_, h6⟩
    have hnum : f.createNewPageHandle.1.numPages = f.numPages + 1 := rfl
    rw [createPages, h5, hnum]
    omega

/-- `f'` is `f` with one slot changed, and perhaps more pages. -/
structure Changed (f f' : RmFileHandle) (rid : Rid) (o : Option Bytes) : Prop where
  pages : f'.PagesOk
  per : f'.numRecordsPerPage = f.numRecordsPerPage
  grows : f.numPages ≤ f'.numPages
  records : f'.records = Function.update f.records rid o

/-- A rid of a file with `n` slots a page, of a page that may still have to be created. -/
structure RidOk (n : ℕ) (rid : Rid) : Prop where
  first : RM_FIRST_RECORD_PAGE ≤ rid.pageNo
  low : 0 ≤ rid.slotNo
  high : rid.slotNo < n

theorem InFile.ridOk {f : RmFileHandle} {rid : Rid} (h : f.InFile rid) : RidOk f.numRecordsPerPage rid :=
  ⟨h.first, h.low, h.high⟩

theorem Changed.refl {f : RmFileHandle} {rid : Rid} {o : Option Bytes} (h : f.PagesOk) (ho : o = f.records rid) :
    Changed f f rid o :=
  ⟨h, rfl, le_refl _, by rw [ho, Function.update_eq_self]⟩

theorem deleteRecord_spec {f : RmFileHandle} {rid : Rid} {r : Bytes} (h : f.PagesOk) (hr : f.records rid = some r) :
    ∃ f', f.deleteRecord rid = .ok f' ∧ Changed f f' rid none :=
  ⟨f.take rid, deleteRecord_eq hr, PagesOk.take h hr, take_numRecordsPerPage .., (take_numPages ..).ge,
    records_take h (inFile_of_records hr)⟩

theorem updateRecord_spec {f : RmFileHandle} {rid : Rid} {r : Bytes} (h : f.PagesOk) (hr : f.records rid = some r)
    (buf : Bytes) : ∃ f', f.updateRecord rid buf = .ok f' ∧ Changed f f' rid (some buf) :=
  ⟨f.write rid buf, updateRecord_eq hr buf, PagesOk.write h hr buf, rfl, le_refl _,
    records_write h (inFile_of_records hr) buf⟩

/-- **`insert_record(rid, buf)`** puts a record into an empty slot, creating the pages up to it. -/
theorem insertRecordAt_spec {f : RmFileHandle} {rid : Rid} (h : f.PagesOk) (hrid : RidOk f.numRecordsPerPage rid)
    (hnone : f.records rid = none) (buf : Bytes) :
    ∃ f', f.insertRecordAt rid buf = .ok f' ∧ Changed f f' rid (some buf) := by
  have hp := hrid.first
  have hs := hrid.low
  have hs' := hrid.high
  set g := createPages (rid.pageNo + 1 - f.numPages).toNat f with hg
  obtain ⟨h1, h2, h3, h4⟩ := createPages_spec (rid.pageNo + 1 - f.numPages).toNat h
  rw [← hg] at h1 h2 h3 h4
  have hin : g.InFile rid := ⟨hp, by omega, hs, by omega⟩
  have hnone' : g.records rid = none := by rw [h2, hnone]
  have hrun : f.insertRecordAt rid buf = g.insertRecordAt rid buf := by
    have hzero : (rid.pageNo + 1 - g.numPages).toNat = 0 := by omega
    unfold insertRecordAt
    rw [← hg, hzero, createPages]
  refine ⟨g.put rid buf, hrun.trans (insertRecordAt_eq hin hnone' buf), PagesOk.put h1 hin hnone' buf, ?_, ?_, ?_⟩
  · rw [put_numRecordsPerPage, h4]
  · rw [put_numPages]
    omega
  · rw [records_put h1 hin, h2]

/-- `create_page_handle` gives a page of the file, after adding one if there is none with room. -/
theorem createPageHandle_cases {f g : RmFileHandle} {p : ℤ} (h : f.PagesOk) (hfirst : RM_FIRST_RECORD_PAGE ≤ f.numPages)
    (hrun : f.createPageHandle = .ok (g, p)) :
    g.PagesOk ∧ g.numRecordsPerPage = f.numRecordsPerPage ∧ f.numPages ≤ g.numPages ∧ g.records = f.records ∧
      RM_FIRST_RECORD_PAGE ≤ p ∧ p < g.numPages ∧ g.firstFreePageNo = p := by
  unfold createPageHandle at hrun
  split at hrun
  · obtain ⟨rfl, rfl⟩ := Prod.mk.inj (Except.ok.inj hrun)
    obtain ⟨h1, h2⟩ := createNewPageHandle_spec h
    exact ⟨h1, rfl, (Int.lt_succ _).le, h2, hfirst, Int.lt_succ _, rfl⟩
  · unfold fetchPageHandle at hrun
    split at hrun
    · cases hrun
    · rename_i hp
      obtain ⟨rfl, rfl⟩ := Prod.mk.inj (Except.ok.inj hrun)
      exact ⟨h, rfl, le_refl _, rfl, by omega, by omega, rfl⟩

/-- **`insert_record(buf)`** puts a record into an empty slot. -/
theorem insertRecord_cases {f f' : RmFileHandle} {rid : Rid} {buf : Bytes} (h : f.PagesOk)
    (hfirst : RM_FIRST_RECORD_PAGE ≤ f.numPages) (hrun : f.insertRecord buf = .ok (f', rid)) :
    f.records rid = none ∧ RidOk f.numRecordsPerPage rid ∧ Changed f f' rid (some buf) := by
  unfold insertRecord at hrun
  rcases hc : f.createPageHandle with err | ⟨g, p⟩
  · rw [hc] at hrun
    cases hrun
  · obtain ⟨hpages, hper, hnum, hrec, hp, hp', hstart⟩ := createPageHandle_cases h hfirst hc
    rw [hc] at hrun
    simp only [bind, Except.bind] at hrun
    split at hrun
    · rename_i hlt
      have hlen : (g.pages p).slots.length = g.numRecordsPerPage := (hpages p hp hp').length
      set s := (g.pages p).slots.findIdx (·.isNone) with hs
      have hin : g.InFile ⟨p, s⟩ := ⟨hp, hp', by simp, by simpa using hlt⟩
      have hidx : s < (g.pages p).slots.length := by omega
      have hnone : g.records ⟨p, s⟩ = none := by
        have hget := hpages.getElem? hin
        have hfree := List.findIdx_getElem (p := fun o : Option Bytes => o.isNone) (w := hidx)
        simp only [cells, Int.toNat_natCast, List.getElem?_eq_getElem hidx, Option.some.injEq] at hget
        rw [← hget]
        exact Option.isNone_iff_eq_none.mp hfree
      have hput : f' = g.put ⟨p, s⟩ buf ∧ rid = ⟨p, s⟩ := by
        unfold put
        simp only [Int.toNat_natCast, hstart, if_true]
        split at hrun
        · rename_i hfull
          obtain ⟨rfl, rfl⟩ := Prod.mk.inj (Except.ok.inj hrun)
          exact ⟨by rw [if_pos hfull], rfl⟩
        · rename_i hfull
          obtain ⟨rfl, rfl⟩ := Prod.mk.inj (Except.ok.inj hrun)
          exact ⟨by rw [if_neg hfull], rfl⟩
      obtain ⟨rfl, rfl⟩ := hput
      refine ⟨by rw [← hrec]; exact hnone, hper ▸ hin.ridOk, PagesOk.put hpages hin hnone buf, ?_, ?_, ?_⟩
      · rw [put_numRecordsPerPage, hper]
      · rw [put_numPages]
        exact hnum
      · rw [records_put hpages hin, hrec]
    · cases hrun

theorem relinkPage_cells (f : RmFileHandle) (p : ℤ) :
    (f.relinkPage p).cells = f.cells ∧ (f.relinkPage p).numPages = f.numPages ∧
      (f.relinkPage p).numRecordsPerPage = f.numRecordsPerPage := by
  unfold relinkPage
  simp only
  split
  · refine ⟨?_, rfl, rfl⟩
    rw [cells_setPage]
    exact Function.update_eq_self p f.cells
  · refine ⟨?_, rfl, rfl⟩
    rw [cells_setPage]
    exact Function.update_eq_self p f.cells

/-- `rebuild_free_page_list` changes the links alone. -/
theorem rebuildFreePageList_cells (f : RmFileHandle) :
    f.rebuildFreePageList.cells = f.cells ∧ f.rebuildFreePageList.numPages = f.numPages ∧
      f.rebuildFreePageList.numRecordsPerPage = f.numRecordsPerPage := by
  have key : ∀ (l : List ℕ) (g : RmFileHandle), g.cells = f.cells → g.numPages = f.numPages →
      g.numRecordsPerPage = f.numRecordsPerPage →
      (l.foldl (fun f i => f.relinkPage (RM_FIRST_RECORD_PAGE + i)) g).cells = f.cells ∧
        (l.foldl (fun f i => f.relinkPage (RM_FIRST_RECORD_PAGE + i)) g).numPages = f.numPages ∧
        (l.foldl (fun f i => f.relinkPage (RM_FIRST_RECORD_PAGE + i)) g).numRecordsPerPage = f.numRecordsPerPage := by
    intro l
    induction l with
    | nil => exact fun g h1 h2 h3 => ⟨h1, h2, h3⟩
    | cons i l ih =>
      intro g h1 h2 h3
      obtain ⟨e1, e2, e3⟩ := relinkPage_cells g (RM_FIRST_RECORD_PAGE + i)
      exact ih _ (e1.trans h1) (e2.trans h2) (e3.trans h3)
  exact key _ { f with firstFreePageNo := RM_NO_PAGE } rfl rfl rfl

theorem records_congr {f g : RmFileHandle} (hcells : g.cells = f.cells) (hnum : g.numPages = f.numPages)
    (hper : g.numRecordsPerPage = f.numRecordsPerPage) : g.records = f.records := by
  funext rid
  have hin : g.InFile rid ↔ f.InFile rid :=
    ⟨fun h => ⟨h.first, hnum ▸ h.last, h.low, hper ▸ h.high⟩, fun h => ⟨h.first, hnum ▸ h.last, h.low, hper ▸ h.high⟩⟩
  rw [records_eq, records_eq, hcells]
  by_cases h : f.InFile rid
  · rw [if_pos h, if_pos (hin.mpr h)]
  · rw [if_neg h, if_neg (mt hin.mp h)]

theorem records_rebuildFreePageList (f : RmFileHandle) : f.rebuildFreePageList.records = f.records :=
  records_congr (rebuildFreePageList_cells f).1 (rebuildFreePageList_cells f).2.1 (rebuildFreePageList_cells f).2.2

end RmFileHandle

end Rmdb.Record
