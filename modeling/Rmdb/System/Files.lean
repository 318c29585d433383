import Rmdb.Index.Header
import Rmdb.Storage.Residents
import Rmdb.System.Schema
import Rmdb.Lib.Triple

/-!
# Files, descriptors and handles

`DiskManager` with the operating system under it, and `RmManager` and `IxManager` over it.
A file is known by a number, which no later file gets again; `open` gives it a
descriptor, which may be that of any file that has been closed. The buffer pool knows
pages by descriptor and page number only.

What the operating system answers to the calls of an operation is an argument of the
operation. An answer can be false (a descriptor in use, a wrong file size); `honest` records
that none has been. `owner`, and the last fields of a handle, record where pages have come
from and which numbers have been allocated. No operation reads these records.

An exception is thrown in the state that is reached. Where the source dies (a failed
assertion, a division by zero, a read outside a buffer) the error is `died`.
-/

namespace Rmdb.Fs

open Lib Storage Index
open Record (RmFileHdr RM_MAX_RECORD_SIZE RM_NO_PAGE BITMAP_WIDTH sizeofRmFileHdr)
open Function (update)

/-- What tells files apart, also those that had the same name one after the other. -/
abbrev FileNo := ℕ

/-- The exceptions of the managers, and the end of the process. -/
inductive DbError where
  /-- `FileExistsError`. -/
  | fileExists (path : String)
  /-- `FileNotFoundError`. -/
  | fileNotFound (path : String)
  /-- `FileNotClosedError`. -/
  | fileNotClosed (path : String)
  /-- `FileNotOpenError`. -/
  | fileNotOpen (fd : ℤ)
  /-- `UnixError`. -/
  | unix
  /-- `InternalError`. -/
  | internal (msg : String)
  /-- `InvalidRecordSizeError`. -/
  | invalidRecordSize (recordSize : ℤ)
  /-- `InvalidColLengthError`. -/
  | invalidColLength (colLen : ℤ)
  /-- `TableExistsError`. -/
  | tableExists (tabName : String)
  /-- `TableNotFoundError`. -/
  | tableNotFound (tabName : String)
  /-- `ColumnNotFoundError`. -/
  | columnNotFound (colName : String)
  /-- `IndexNotFoundError`. -/
  | indexNotFound (tabName : String) (colNames : List String)
  /-- `IndexExistsError`. -/
  | indexExists (tabName : String) (colNames : List String)
  /-- `std::out_of_range`, of `map::at`. -/
  | outOfRange
  /-- `std::length_error`, of a vector of negative length. -/
  | lengthError
  /-- The process ends. -/
  | died
deriving DecidableEq

/-- The header that a handle keeps in memory. -/
inductive Hdr where
  /-- `RmFileHandle::file_hdr_`. -/
  | table (hdr : RmFileHdr)
  /-- `IxIndexHandle::file_hdr_`. -/
  | index (hdr : IxFileHdr)
deriving DecidableEq

/-- The number of pages that a header counts. -/
def Hdr.numPages : Hdr → ℤ
  | .table hdr => hdr.numPages
  | .index hdr => hdr.numPages

/-- What is written of a header. -/
def Hdr.bytes : Hdr → Bytes
  | .table hdr => hdr.bytes
  | .index hdr => hdr.serialize

/-- An open `RmFileHandle` or `IxIndexHandle`. -/
structure Handle where
  /-- `file_hdr_`. -/
  hdr : Hdr
  /-- The file it was opened for. -/
  file : FileNo
  /-- The number of pages in the header when it was opened. -/
  start : ℤ
  /-- The page numbers allocated through it, in order. -/
  allocated : List ℤ

/-- The files, the disk manager and the buffer pool. -/
structure Files where
  /-- The buffer pool, with the pages of the open files as its disk. -/
  bpm : BufferPoolManager
  /-- The directory. -/
  dir : String → Option FileNo
  /-- The pages of the files that are not open. -/
  pages : FileNo → Pages
  /-- The number of the next file. -/
  nextFile : FileNo
  /-- The file that a descriptor is open for. -/
  opened : ℤ → Option FileNo
  /-- `path2fd_`. -/
  path2fd : String → Option ℤ
  /-- `fd2path_`. -/
  fd2path : ℤ → Option String
  /-- The open handles, by descriptor. -/
  handles : ℤ → Option Handle
  /-- The file that a page in the pool was read from or allocated for. -/
  owner : PageId → Option FileNo
  /-- No answer of the operating system was false. -/
  honest : Prop

/-- What the operating system answers to the calls of one operation. -/
structure Os where
  /-- `open` with `O_CREAT` fails, for another reason than that the file exists. -/
  createFails : Bool
  /-- The `close` after it fails. -/
  createCloseFails : Bool
  /-- `unlink` fails, for another reason than that there is no file. -/
  unlinkFails : Bool
  /-- `open`: a descriptor, with the size of the file. -/
  fd : Option (ℤ × ℤ)
  /-- `close` fails, and leaves the descriptor as it is. -/
  closeFails : Bool
  /-- A `pwrite` fails after that many bytes of a write to a page. -/
  torn : ℤ → Option ℕ
  /-- A `pread` fails. -/
  readFails : Bool
  /-- The write-backs of the buffer pool. -/
  io : Io
  /-- The frames of a file, in the order in which `page_table_` has them. -/
  frames : List ℕ

/-- A program that uses the files. -/
abbrev FileM := EStateM DbError Files

/-- The size of a file: it ends in the last page that was written. -/
def SizeOf (file : Pages) (size : ℤ) : Prop :=
  0 ≤ size ∧ (∀ n, file n ≠ none → 0 ≤ n ∧ n * PAGE_SIZE < size) ∧ (0 < size → file ((size - 1) / PAGE_SIZE) ≠ none)

/-! ### `DiskManager` -/

namespace DiskManager

/-- `create_file`. -/
def createFile (os : Os) (path : String) : FileM Unit := fun s =>
  match s.dir path with
  | some _ => .error (.fileExists path) s
  | none =>
    if os.createFails then .error .unix s
    else
      let s := { s with
        dir := update s.dir path (some s.nextFile)
        pages := update s.pages s.nextFile fun _ => none
        nextFile := s.nextFile + 1 }
      if os.createCloseFails then .error .unix s else .ok () s

/-- `destroy_file`. -/
def destroyFile (os : Os) (path : String) : FileM Unit := fun s =>
  match s.path2fd path with
  | some _ => .error (.fileNotClosed path) s
  | none =>
    match s.dir path with
    | none => .error (.fileNotFound path) s
    | some _ => if os.unlinkFails then .error .unix s else .ok () { s with dir := update s.dir path none }

/-- The page count that `open_file` starts from: the size is an `int`, and so is the sum. -/
def pagesOfSize (size : ℤ) : ℤ := ((size.bmod (2 ^ 32) + (PAGE_SIZE - 1)).bmod (2 ^ 32)).tdiv PAGE_SIZE

/-- `open_file`. -/
def openFile (os : Os) (path : String) : FileM ℤ := fun s =>
  match s.path2fd path with
  | some _ => .error (.fileNotClosed path) s
  | none =>
    match s.dir path with
    | none => .error (.fileNotFound path) s
    | some file =>
      match os.fd with
      | none => .error .unix s
      | some (fd, size) =>
        if MAX_FD ≤ fd then .error (.internal "file descriptor exceeds DiskManager limit") s
        else .ok fd { s with
          path2fd := update s.path2fd path (some fd)
          fd2path := update s.fd2path fd (some path)
          opened := update s.opened fd (some file)
          bpm := { s.bpm with
            disk := fun pid => if pid.fd = fd then s.pages file pid.pageNo else s.bpm.disk pid
            fd2pageno := update s.bpm.fd2pageno fd (pagesOfSize size) }
          honest := s.honest ∧ 0 ≤ fd ∧ s.opened fd = none ∧ SizeOf (s.pages file) size }

/-- `close_file`. -/
def closeFile (os : Os) (fd : ℤ) : FileM Unit := fun s =>
  match s.fd2path fd with
  | none => .error (.fileNotOpen fd) s
  | some path =>
    if os.closeFails then .error .unix s
    else .ok () { s with
      path2fd := update s.path2fd path none
      fd2path := update s.fd2path fd none
      opened := update s.opened fd none
      pages := match s.opened fd with
        | some file => update s.pages file fun n => s.bpm.disk ⟨fd, n⟩
        | none => s.pages }

/-- The pages of an open file on disk. -/
def filePages (s : Files) (fd : ℤ) : Pages := fun n => s.bpm.disk ⟨fd, n⟩

/-- The disk with another content of an open file. -/
def setPages (s : Files) (fd : ℤ) (file : Pages) : Files :=
  { s with bpm := { s.bpm with disk := fun pid => if pid.fd = fd then file pid.pageNo else s.bpm.disk pid } }

/-- `write_page`. -/
def writePage (os : Os) (fd pageNo : ℤ) (bytes : Bytes) : FileM Unit := fun s =>
  match os.torn pageNo with
  | some k => .error (.internal "DiskManager::write_page Error")
      (setPages s fd (writeBytes (filePages s fd) pageNo (bytes.take k)))
  | none => .ok () (setPages s fd (writeBytes (filePages s fd) pageNo bytes))

/-- `read_page` of a whole page. -/
def readPage (os : Os) (fd pageNo : ℤ) : FileM Bytes := fun s =>
  if os.readFails then .error (.internal "DiskManager::read_page Error") s
  else .ok (readBytes (filePages s fd) pageNo) s

/-- `set_fd2pageno`. -/
def setFd2pageno (fd startPageNo : ℤ) : FileM Unit := modify fun s =>
  { s with bpm := { s.bpm with fd2pageno := update s.bpm.fd2pageno fd startPageNo } }

/-- `get_fd2pageno`. -/
def getFd2pageno (fd : ℤ) : FileM ℤ := fun s => .ok (s.bpm.fd2pageno fd) s

end DiskManager

open DiskManager

/-- `BufferPoolManager::delete_all_pages`. -/
def deleteAllPages (os : Os) (fd : ℤ) : FileM Unit := fun s =>
  let out := BufferPoolManager.deleteAllPagesIo os.io fd s.bpm os.frames
  let s' := { s with bpm := out.1, honest := s.honest ∧ s.bpm.Lists fd os.frames }
  match out.2 with
  | .returned () => .ok () s'
  | .throws => .error (.internal "DiskManager::write_page Error") s'

/-- A handle comes to be, and sets the counter of its file. -/
def construct (fd : ℤ) (hdr : Hdr) (startPageNo : ℤ) : FileM Unit := fun s =>
  match s.opened fd with
  | none => .error .died s
  | some file =>
    .ok () { s with
      bpm := { s.bpm with fd2pageno := update s.bpm.fd2pageno fd startPageNo }
      handles := update s.handles fd (some ⟨hdr, file, hdr.numPages, []⟩) }

/-- A handle is closed, in `RmManager` and `IxManager` alike: the header is written, the pages of the file leave
the pool, and the file is closed. -/
def closeHandle (os : Os) (hdrPage fd : ℤ) : FileM Unit := fun s =>
  match s.handles fd with
  | none => .error .died s
  | some h =>
    (do
      writePage os fd hdrPage h.hdr.bytes
      deleteAllPages os fd
      DiskManager.closeFile os fd
      modify fun s => { s with handles := update s.handles fd none } : FileM Unit) s

/-! ### `RmManager` -/

/-- `RM_FILE_HDR_PAGE`. -/
def RM_FILE_HDR_PAGE : ℤ := 0

namespace RmManager

/-- The header that `create_file` writes. -/
def fileHdr (recordSize : ℤ) : RmFileHdr :=
  let numRecordsPerPage :=
    ((BITMAP_WIDTH * (Record.PAGE_SIZE - 1 - sizeofRmFileHdr) + 1) / (1 + recordSize * BITMAP_WIDTH)).toNat
  { recordSize := recordSize.toNat
    numPages := 1
    numRecordsPerPage := numRecordsPerPage
    firstFreePageNo := RM_NO_PAGE
    bitmapSize := ((numRecordsPerPage + BITMAP_WIDTH - 1) / BITMAP_WIDTH).toNat }

/-- `create_file`. -/
def createFile (os : Os) (filename : String) (recordSize : Int32) : FileM Unit :=
  if recordSize.toInt < 1 ∨ RM_MAX_RECORD_SIZE < recordSize.toInt then throw (.invalidRecordSize recordSize.toInt)
  else do
    DiskManager.createFile os filename
    let fd ← DiskManager.openFile os filename
    writePage os fd RM_FILE_HDR_PAGE (fileHdr recordSize.toInt).bytes
    DiskManager.closeFile os fd

/-- `destroy_file`. -/
def destroyFile (os : Os) (filename : String) : FileM Unit := DiskManager.destroyFile os filename

/-- `open_file`, with the constructor of `RmFileHandle`. -/
def openFile (os : Os) (filename : String) : FileM ℤ := do
  let fd ← DiskManager.openFile os filename
  let src ← readPage os fd RM_FILE_HDR_PAGE
  let hdr := RmFileHdr.ofBytes src
  construct fd (.table hdr) hdr.numPages
  return fd

/-- `close_file`. -/
def closeFile (os : Os) (fd : ℤ) : FileM Unit := closeHandle os RM_FILE_HDR_PAGE fd

end RmManager

/-! ### `IxManager` -/

namespace IxManager

/-- `get_index_name`. -/
def getIndexName (filename : String) (indexCols : List String) : String :=
  indexCols.foldl (fun indexName col => indexName ++ "_" ++ col) filename ++ ".idx"

/-- The running sum of the lengths of the columns, an `int`. -/
def colTotLen (indexCols : List Catalog.ColMeta) : Int32 := indexCols.foldl (fun sum col => sum + col.len) 0

/-- `btree_order`: the division is one of `size_t`. A divisor of zero and an order that fails its assertion are
`none`. -/
def btreeOrder (colTotLen : Int32) : Option ℤ :=
  let divisor := (colTotLen.toInt + sizeofRid) % 2 ^ 64
  if divisor = 0 then none
  else
    let order := ((PAGE_SIZE - sizeofIxPageHdr : ℤ) / divisor - 1).bmod (2 ^ 32)
    if 2 < order then some order else none

/-- The header that `create_index` writes; `col_num` is an `int`. -/
def fileHdr (indexCols : List Catalog.ColMeta) (order : ℤ) : IxFileHdr :=
  let colNum := (Int32.ofNat indexCols.length).toInt
  let cols := indexCols.take colNum.toNat
  { firstFreePageNo := IX_NO_PAGE
    numPages := IX_INIT_NUM_PAGES
    rootPage := IX_INIT_ROOT_PAGE
    colNum := colNum
    colTypes := cols.map (·.type)
    colLens := cols.map (·.len.toInt)
    colTotLen := (colTotLen indexCols).toInt
    btreeOrder := order
    keysSize := (order + 1) * (colTotLen indexCols).toInt
    firstLeaf := IX_INIT_ROOT_PAGE
    lastLeaf := IX_INIT_ROOT_PAGE
    totLen := 40 + 8 * colNum }

/-- An empty leaf between two others. -/
def leafPage (prevLeaf nextLeaf : ℤ) : Bytes :=
  [IX_NO_PAGE, IX_NO_PAGE, 0, 1, prevLeaf, nextLeaf].flatMap (intBytes 4) ++ List.replicate (PAGE_SIZE - sizeofIxPageHdr) 0

/-- `create_index`, of the file name that `get_index_name` gives. -/
def createIndex (os : Os) (ixName : String) (indexCols : List Catalog.ColMeta) : FileM Unit := do
  DiskManager.createFile os ixName
  let fd ← DiskManager.openFile os ixName
  if (IX_MAX_COL_LEN : ℤ) < (colTotLen indexCols).toInt then throw (.invalidColLength (colTotLen indexCols).toInt)
  else match btreeOrder (colTotLen indexCols) with
    | none => throw .died
    | some order => do
      writePage os fd IX_FILE_HDR_PAGE (fileHdr indexCols order).serialize
      writePage os fd IX_LEAF_HEADER_PAGE (leafPage IX_INIT_ROOT_PAGE IX_INIT_ROOT_PAGE)
      writePage os fd IX_INIT_ROOT_PAGE (leafPage IX_LEAF_HEADER_PAGE IX_LEAF_HEADER_PAGE)
      setFd2pageno fd IX_INIT_NUM_PAGES
      DiskManager.closeFile os fd

/-- `destroy_index`. -/
def destroyIndex (os : Os) (ixName : String) : FileM Unit := DiskManager.destroyFile os ixName

/-- `open_index`, with the constructor of `IxIndexHandle`. -/
def openIndex (os : Os) (ixName : String) : FileM ℤ := do
  let fd ← DiskManager.openFile os ixName
  let src ← readPage os fd IX_FILE_HDR_PAGE
  match IxFileHdr.deserialize src with
  | none => throw .died
  | some hdr => do
    let nowPageNo ← getFd2pageno fd
    construct fd (.index hdr) (max nowPageNo hdr.numPages)
    return fd

/-- `close_index`. -/
def closeIndex (os : Os) (fd : ℤ) : FileM Unit := closeHandle os IX_FILE_HDR_PAGE fd

end IxManager

/-! ### Using a handle -/

/-- The pool after a call that is for a page; the page belongs to the file if it was not in the pool before. -/
def Files.bring (s : Files) (bpm : BufferPoolManager) (pid : PageId) (file : FileNo) : Files :=
  { s with bpm := bpm, owner := if s.bpm.pageTable pid = none then update s.owner pid (some file) else s.owner }

/-- Change a handle. -/
def Files.setHandle (s : Files) (fd : ℤ) (h : Handle) : Files := { s with handles := update s.handles fd (some h) }

/-- `new_page` through a handle, which has the header `hdr` then. -/
def Files.allocate (s : Files) (io : Io) (fd : ℤ) (h : Handle) (hdr : Hdr) : Files :=
  let bpm := (s.bpm.newPageIo io fd).1
  let pageNo := s.bpm.fd2pageno fd
  (s.bring bpm ⟨fd, pageNo⟩ h.file).setHandle fd { h with
    hdr := hdr
    allocated := if bpm.fd2pageno fd = pageNo then h.allocated else h.allocated ++ [pageNo] }

/-- `RmFileHandle::create_new_page_handle`: the header counts the page if there is one. -/
def Files.createNewPageHandle (s : Files) (io : Io) (fd : ℤ) (h : Handle) (hdr : RmFileHdr) : Files :=
  s.allocate io fd h <| .table <| match (s.bpm.newPageIo io fd).2 with
    | .returned (some (pid, _)) => { hdr with firstFreePageNo := pid.pageNo, numPages := hdr.numPages + 1 }
    | _ => hdr

/-- `IxIndexHandle::create_node`: the header counts the page first. -/
def Files.createNode (s : Files) (io : Io) (fd : ℤ) (h : Handle) (hdr : IxFileHdr) : Files :=
  s.allocate io fd h (.index { hdr with numPages := hdr.numPages + 1 })

/-- A call of the pool that is for pages that are in it. -/
def Call.stays : Call → Bool
  | .fetch _ | .new _ | .deleteAll _ => false
  | _ => true

/-- The header after an operation that allocates nothing. -/
inductive SameLayout : Hdr → Hdr → Prop where
  /-- Only `first_free_page_no` of a table changes. -/
  | table {hdr : RmFileHdr} (firstFreePageNo : ℤ) : SameLayout (.table hdr) (.table { hdr with firstFreePageNo := firstFreePageNo })
  /-- The root and the ends of the leaves of an index change. -/
  | index {hdr : IxFileHdr} (rootPage firstLeaf lastLeaf : ℤ) : SameLayout (.index hdr)
      (.index { hdr with rootPage := rootPage, firstLeaf := firstLeaf, lastLeaf := lastLeaf })

/-- What is done through the handles of open files. -/
inductive Use (s : Files) : Files → Prop where
  /-- `fetch_page_handle`, which checks the page number, or `fetch_node`, of a node of the tree. -/
  | fetch {fd n : ℤ} {h : Handle} {io : Io} : s.handles fd = some h → 1 ≤ n → n < h.hdr.numPages →
      Use s (s.bring (s.bpm.fetchPageIo io ⟨fd, n⟩).1 ⟨fd, n⟩ h.file)
  /-- `create_new_page_handle`. -/
  | createNewPageHandle {fd : ℤ} {h : Handle} {hdr : RmFileHdr} {io : Io} : s.handles fd = some h → h.hdr = .table hdr →
      Use s (s.createNewPageHandle io fd h hdr)
  /-- `create_node`; it dies on a page that it does not get, and page numbers are `int`s. -/
  | createNode {fd : ℤ} {h : Handle} {hdr : IxFileHdr} {io : Io} : s.handles fd = some h → h.hdr = .index hdr →
      hdr.numPages + 1 < 2 ^ 31 → (s.bpm.newPageIo io fd).2 ≠ .returned none → Use s (s.createNode io fd h hdr)
  /-- A call of the pool for pages that are in it, or a write to a pinned page. -/
  | call {c : Call} {io : Io} {bpm : BufferPoolManager} : IoStep s.bpm (c, io) bpm → Call.stays c = true →
      Use s { s with bpm := bpm }
  /-- A handle changes its header. -/
  | setHdr {fd : ℤ} {h : Handle} {hdr : Hdr} : s.handles fd = some h → SameLayout h.hdr hdr →
      Use s (s.setHandle fd { h with hdr := hdr })
  /-- Recovery writes the header of a table. -/
  | writeHdr {fd : ℤ} {h : Handle} {hdr : RmFileHdr} {bytes : Bytes} : s.handles fd = some h → h.hdr = .table hdr →
      Use s (DiskManager.setPages s fd (writeBytes (DiskManager.filePages s fd) RM_FILE_HDR_PAGE bytes))

end Rmdb.Fs
