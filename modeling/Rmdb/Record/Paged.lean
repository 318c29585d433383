import Rmdb.Record.Layout

/-!
# Record files in bytes

`RmFileHandle` and `RmManager` as they work on the bytes of pages in the buffer pool. An
operation pins a page, reads and writes its bytes, and unpins it; the file header is in
memory while the file is open, and on page `0` while it is closed.

An operation that throws leaves the state as it is then. `++num_pages` past the largest
`int` is undefined in the source; here it throws.
-/

namespace Rmdb.Record.Paged

open Lib Storage

/-- The largest `int`. -/
def INT_MAX : ℤ := 2 ^ 31 - 1

/-- What is thrown. -/
inductive Error where
  /-- An exception of the record manager. -/
  | rm (e : RmError)
  /-- `InternalError("buffer pool has no available frame")`. -/
  | noFrame
  /-- `InternalError("DiskManager::read_page Error")`. -/
  | readPage
  /-- An `int` overflows. -/
  | overflow
deriving DecidableEq

/-- `RmFileHandle`, with the buffer pool it works on. -/
structure RmFileHandle where
  /-- `buffer_pool_manager_` and `disk_manager_`. -/
  bpm : BufferPoolManager
  /-- `fd_`. -/
  fd : ℤ
  /-- `file_hdr_`. -/
  fileHdr : RmFileHdr

/-- An operation on an open file. -/
abbrev M := ExceptT Error (StateM RmFileHandle)

/-- Run an operation. -/
def exec {α : Type} (x : M α) (f : RmFileHandle) : Except Error α × RmFileHandle := (ExceptT.run x).run f

/-- `RmPageHandle`: the frame of its page. -/
structure RmPageHandle where
  /-- `page`. -/
  frame : ℕ

/-- The bytes of the page. -/
def RmFileHandle.data (f : RmFileHandle) (page : RmPageHandle) : PageData := (f.bpm.pages page.frame).data

/-- `page->get_page_id().page_no`. -/
def RmFileHandle.pageNo (f : RmFileHandle) (page : RmPageHandle) : ℤ := (f.bpm.pages page.frame).id.pageNo

/-- Write the bytes of a page. -/
def setData (page : RmPageHandle) (data : PageData) : M Unit :=
  modify fun f => { f with bpm := f.bpm.setPage page.frame { f.bpm.pages page.frame with data := data } }

/-- `unpin_page`. -/
def unpinPage (pageNo : ℤ) (isDirty : Bool) : M Unit :=
  modify fun f => { f with bpm := (f.bpm.unpinPage ⟨f.fd, pageNo⟩ isDirty).1 }

/-- Write `file_hdr_.first_free_page_no`. -/
def setFirstFreePageNo (pageNo : ℤ) : M Unit :=
  modify fun f => { f with fileHdr := { f.fileHdr with firstFreePageNo := pageNo } }

/-- `fetch_page_handle`. -/
def fetchPageHandle (pageNo : ℤ) : M RmPageHandle := do
  let f ← get
  if pageNo < RM_FIRST_RECORD_PAGE ∨ f.fileHdr.numPages ≤ pageNo then throw (.rm (.pageNotExist pageNo))
  else
    set { f with bpm := (f.bpm.fetchPage ⟨f.fd, pageNo⟩).1 }
    match (f.bpm.fetchPage ⟨f.fd, pageNo⟩).2 with
    | .page frame => pure ⟨frame⟩
    | .null => throw .noFrame
    | .throws => throw .readPage

/-- The slot that `rid` names has no record: the bounds, and the bitmap. -/
def noRecord (hdr : RmFileHdr) (data : PageData) (rid : Rid) : Bool :=
  rid.slotNo < 0 || hdr.numRecordsPerPage ≤ rid.slotNo || !Bitmap.isSet data bitmapAt rid.slotNo.toNat

/-- `get_record`. -/
def getRecord (rid : Rid) : M Bytes := do
  let page ← fetchPageHandle rid.pageNo
  let f ← get
  if noRecord f.fileHdr (f.data page) rid then
    unpinPage rid.pageNo false
    throw (.rm (.recordNotFound rid.pageNo rid.slotNo))
  else
    unpinPage rid.pageNo false
    pure (cellsAt (f.data page) (getSlot f.fileHdr rid.slotNo.toNat) f.fileHdr.recordSize)

/-- `is_record`. -/
def isRecord (rid : Rid) : M Bool := do
  let page ← fetchPageHandle rid.pageNo
  let f ← get
  unpinPage rid.pageNo false
  pure (!noRecord f.fileHdr (f.data page) rid)

/-- `create_new_page_handle`. -/
def createNewPageHandle : M RmPageHandle := do
  let f ← get
  if f.fileHdr.numPages = INT_MAX then throw .overflow
  else match f.bpm.newPage f.fd with
    | (bpm, none) => do
      set { f with bpm := bpm }
      throw .noFrame
    | (bpm, some (pageId, frame)) => do
      set { f with bpm := bpm }
      let data := setInt ((bpm.pages frame).data) nextFreePageNoAt f.fileHdr.firstFreePageNo
      let data := setInt data numRecordsAt 0
      setData ⟨frame⟩ (Bitmap.init data bitmapAt f.fileHdr.bitmapSize)
      setFirstFreePageNo pageId.pageNo
      modify fun f => { f with fileHdr := { f.fileHdr with numPages := f.fileHdr.numPages + 1 } }
      pure ⟨frame⟩

/-- `create_page_handle`. -/
def createPageHandle : M RmPageHandle := do
  let f ← get
  if f.fileHdr.firstFreePageNo = RM_NO_PAGE then createNewPageHandle
  else fetchPageHandle f.fileHdr.firstFreePageNo

/-- `release_page_handle`. -/
def releasePageHandle (page : RmPageHandle) : M Unit := do
  let f ← get
  setData page (setInt (f.data page) nextFreePageNoAt f.fileHdr.firstFreePageNo)
  setFirstFreePageNo (f.pageNo page)

/-- The bytes of a page with a record put into a slot: `set`, `memcpy`, `++num_records`. -/
def putRecord (hdr : RmFileHdr) (data : PageData) (slotNo : ℕ) (buf : Bytes) : PageData :=
  let data := Bitmap.set data bitmapAt slotNo
  let data := copyTo data (getSlot hdr slotNo) (buf.take hdr.recordSize)
  setInt data numRecordsAt (intAt data numRecordsAt + 1)

/-- `insert_record(buf)`. -/
def insertRecord (buf : Bytes) : M Rid := do
  let page ← createPageHandle
  let f ← get
  let slotNo := Bitmap.firstBit false (f.data page) bitmapAt f.fileHdr.numRecordsPerPage
  if f.fileHdr.numRecordsPerPage ≤ slotNo then throw (.rm .assertion)
  else
    let data := putRecord f.fileHdr (f.data page) slotNo buf
    if intAt data numRecordsAt = f.fileHdr.numRecordsPerPage then
      setFirstFreePageNo (intAt data nextFreePageNoAt)
      setData page (setInt data nextFreePageNoAt RM_NO_PAGE)
    else setData page data
    unpinPage (f.pageNo page) true
    pure ⟨f.pageNo page, slotNo⟩

/-- The bytes of a page with a record taken out of a slot: `reset`, `--num_records`. -/
def takeRecord (data : PageData) (slotNo : ℕ) : PageData :=
  let data := Bitmap.reset data bitmapAt slotNo
  setInt data numRecordsAt (intAt data numRecordsAt - 1)

/-- `delete_record`. -/
def deleteRecord (rid : Rid) : M Unit := do
  let page ← fetchPageHandle rid.pageNo
  let f ← get
  if noRecord f.fileHdr (f.data page) rid then
    unpinPage rid.pageNo false
    throw (.rm (.recordNotFound rid.pageNo rid.slotNo))
  else
    let wasFull : Bool := intAt (f.data page) numRecordsAt = f.fileHdr.numRecordsPerPage
    setData page (takeRecord (f.data page) rid.slotNo.toNat)
    if wasFull then releasePageHandle page
    unpinPage rid.pageNo true

/-- `update_record`. -/
def updateRecord (rid : Rid) (buf : Bytes) : M Unit := do
  let page ← fetchPageHandle rid.pageNo
  let f ← get
  if noRecord f.fileHdr (f.data page) rid then
    unpinPage rid.pageNo false
    throw (.rm (.recordNotFound rid.pageNo rid.slotNo))
  else
    setData page (copyTo (f.data page) (getSlot f.fileHdr rid.slotNo.toNat) (buf.take f.fileHdr.recordSize))
    unpinPage rid.pageNo true

/-! ### Files on disk -/

/-- `RM_FILE_HDR_PAGE`. -/
def RM_FILE_HDR_PAGE : ℤ := 0

/-- A file on disk: what has been written to its pages. -/
abbrev DiskFile := ℤ → Option PageData

/-- `RmManager::create_file`. -/
def createFile (recordSize : ℤ) : Except RmError DiskFile :=
  if recordSize < 1 ∨ RM_MAX_RECORD_SIZE < recordSize then .error (.invalidRecordSize recordSize)
  else .ok (Function.update (fun _ => none) RM_FILE_HDR_PAGE (some (copyTo zeros 0 (createHdr recordSize).bytes)))

/-- `RmManager::open_file`, with the file descriptor that the system gives it. -/
def openFile (bpm : BufferPoolManager) (file : DiskFile) (fd : ℤ) : RmFileHandle :=
  let fileHdr := RmFileHdr.ofBytes (cellsAt ((file RM_FILE_HDR_PAGE).getD zeros) 0 20)
  { bpm := { bpm with
      disk := fun p => if p.fd = fd then file p.pageNo else bpm.disk p
      fd2pageno := Function.update bpm.fd2pageno fd fileHdr.numPages }
    fd := fd
    fileHdr := fileHdr }

/-- `RmManager::close_file`, with the frames of the file in the order in which they are found. -/
def closeFile (f : RmFileHandle) (frameIds : List ℕ) : BufferPoolManager × DiskFile :=
  let header : PageId := ⟨f.fd, RM_FILE_HDR_PAGE⟩
  let bpm := f.bpm.writePage header (copyTo (f.bpm.diskData header) 0 f.fileHdr.bytes)
  let bpm := bpm.deleteAllPages f.fd frameIds
  (bpm, fun pageNo => bpm.disk ⟨f.fd, pageNo⟩)

end Rmdb.Record.Paged
