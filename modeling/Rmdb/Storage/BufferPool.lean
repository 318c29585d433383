import Rmdb.Common.Defs
import Mathlib.Logic.Function.Basic
import Mathlib.Data.List.Nodup

/-!
# The buffer pool

`BufferPoolManager` with its `LRUReplacer`, over a disk of pages. A page is in a frame of
the pool, on disk, or in both in different versions. The disk keeps, for every page, what was last
written to it; a page that was never written reads as zeros. `page_table_` is an
`unordered_map`: the loops over it visit its entries in some order, which is an argument of
the model.

`read_page` fails at a negative page number; `fetch_page` then gives the frame back and
throws.

`page_no`, `pin_count_` and the counters of `fd2pageno_` are integers here. In the source they have
32 bits: a count of pins would have to pass `2 ^ 31` to wrap, and a counter the same number of calls of
`new_page` on one descriptor, which is a file of 8 TiB.
-/

namespace Rmdb.Storage

/-- `PAGE_SIZE`. -/
def PAGE_SIZE : ℕ := 4096

/-- `INVALID_PAGE_ID`. -/
def INVALID_PAGE_ID : ℤ := -1

/-- `MAX_FD`. -/
def MAX_FD : ℤ := 8192

/-- The bytes of a page. -/
abbrev PageData := Fin PAGE_SIZE → UInt8

/-- A page of zeros. -/
def zeros : PageData := fun _ => 0

/-- `PageId`. -/
structure PageId where
  /-- `fd`. -/
  fd : ℤ
  /-- `page_no`. -/
  pageNo : ℤ
deriving DecidableEq

/-- The `PageId` of a frame without a page. -/
def noPage : PageId := ⟨-1, INVALID_PAGE_ID⟩

/-- `Page`: a frame of the pool. -/
structure Page where
  /-- `id_`. -/
  id : PageId
  /-- `data_`. -/
  data : PageData
  /-- `is_dirty_`. -/
  isDirty : Bool
  /-- `pin_count_`. -/
  pinCount : ℤ

/-- `BufferPoolManager`, its replacer and its disk. -/
structure BufferPoolManager where
  /-- `pool_size_`, which is also the replacer's `max_size_`. -/
  poolSize : ℕ
  /-- `pages_`. -/
  pages : ℕ → Page
  /-- `page_table_`. -/
  pageTable : PageId → Option ℕ
  /-- `free_list_`. -/
  freeList : List ℕ
  /-- `LRUlist_`. -/
  lruList : List ℕ
  /-- What has been written to the pages on disk. -/
  disk : PageId → Option PageData
  /-- `fd2pageno_`. -/
  fd2pageno : ℤ → ℤ

namespace BufferPoolManager

/-- The constructor, on a disk. -/
def create (poolSize : ℕ) (disk : PageId → Option PageData) (fd2pageno : ℤ → ℤ) : BufferPoolManager where
  poolSize := poolSize
  pages _ := ⟨noPage, zeros, false, 0⟩
  pageTable _ := none
  freeList := List.range poolSize
  lruList := []
  disk := disk
  fd2pageno := fd2pageno

/-! ### The disk -/

/-- What the disk holds of a page. -/
def diskData (bpm : BufferPoolManager) (pid : PageId) : PageData := (bpm.disk pid).getD zeros

/-- `write_page`. -/
def writePage (bpm : BufferPoolManager) (pid : PageId) (data : PageData) : BufferPoolManager :=
  { bpm with disk := Function.update bpm.disk pid (some data) }

/-- `read_page`; `none` is `InternalError`. -/
def readPage (bpm : BufferPoolManager) (pid : PageId) : Option PageData :=
  if pid.pageNo < 0 then none else some (bpm.diskData pid)

/-! ### The replacer -/

/-- `LRUReplacer::pin`. -/
def pin (bpm : BufferPoolManager) (frame : ℕ) : BufferPoolManager :=
  if bpm.poolSize ≤ frame then bpm else { bpm with lruList := bpm.lruList.erase frame }

/-- `LRUReplacer::unpin`. -/
def unpin (bpm : BufferPoolManager) (frame : ℕ) : BufferPoolManager :=
  if bpm.poolSize ≤ frame then bpm
  else if frame ∈ bpm.lruList ∨ bpm.poolSize ≤ bpm.lruList.length then bpm
  else { bpm with lruList := bpm.lruList ++ [frame] }

/-- `find_victim_page`: a free frame, or the victim of the replacer. -/
def findVictimPage (bpm : BufferPoolManager) : Option (BufferPoolManager × ℕ) :=
  match bpm.freeList with
  | frame :: rest => some ({ bpm with freeList := rest }, frame)
  | [] =>
    match bpm.lruList with
    | frame :: rest => some ({ bpm with lruList := rest }, frame)
    | [] => none

/-! ### The operations -/

/-- Change a frame. -/
def setPage (bpm : BufferPoolManager) (frame : ℕ) (page : Page) : BufferPoolManager :=
  { bpm with pages := Function.update bpm.pages frame page }

/-- `update_page`: the frame's page goes to disk if it is dirty, and the frame becomes the new page, zeroed. -/
def updatePage (bpm : BufferPoolManager) (frame : ℕ) (newPageId : PageId) : BufferPoolManager :=
  let page := bpm.pages frame
  let bpm :=
    if page.id.pageNo ≠ INVALID_PAGE_ID then
      let bpm := if page.isDirty then bpm.writePage page.id page.data else bpm
      { bpm with pageTable := Function.update bpm.pageTable page.id none }
    else bpm
  let bpm := bpm.setPage frame ⟨newPageId, zeros, false, 0⟩
  if newPageId.pageNo ≠ INVALID_PAGE_ID then
    { bpm with pageTable := Function.update bpm.pageTable newPageId (some frame) }
  else bpm

/-- What `fetch_page` returns. -/
inductive Fetched where
  /-- The page in a frame. -/
  | page (frame : ℕ)
  /-- `nullptr`: no frame can be had. -/
  | null
  /-- It throws: the page cannot be read. -/
  | throws

/-- `fetch_page`. -/
def fetchPage (bpm : BufferPoolManager) (pid : PageId) : BufferPoolManager × Fetched :=
  match bpm.pageTable pid with
  | some frame =>
    let page := bpm.pages frame
    ((bpm.setPage frame { page with pinCount := page.pinCount + 1 }).pin frame, .page frame)
  | none =>
    match bpm.findVictimPage with
    | none => (bpm, .null)
    | some (bpm, frame) =>
      let bpm := bpm.updatePage frame pid
      match bpm.readPage pid with
      | none =>
        let bpm := { bpm with pageTable := Function.update bpm.pageTable pid none }
        let bpm := bpm.setPage frame { bpm.pages frame with id := noPage }
        ({ bpm with freeList := bpm.freeList ++ [frame] }, .throws)
      | some data =>
        ((bpm.setPage frame { bpm.pages frame with data := data, pinCount := 1 }).pin frame, .page frame)

/-- `unpin_page`. -/
def unpinPage (bpm : BufferPoolManager) (pid : PageId) (isDirty : Bool) : BufferPoolManager × Bool :=
  match bpm.pageTable pid with
  | none => (bpm, false)
  | some frame =>
    let page := bpm.pages frame
    if page.pinCount ≤ 0 then (bpm, false)
    else
      let bpm := bpm.setPage frame { page with pinCount := page.pinCount - 1, isDirty := page.isDirty || isDirty }
      (if page.pinCount - 1 = 0 then bpm.unpin frame else bpm, true)

/-- `flush_page`. -/
def flushPage (bpm : BufferPoolManager) (pid : PageId) : BufferPoolManager × Bool :=
  if pid.pageNo = INVALID_PAGE_ID then (bpm, false)
  else match bpm.pageTable pid with
    | none => (bpm, false)
    | some frame =>
      let page := bpm.pages frame
      ((bpm.writePage pid page.data).setPage frame { page with isDirty := false }, true)

/-- `allocate_page`; the source asserts that the file descriptor is in range. -/
def allocatePage (bpm : BufferPoolManager) (fd : ℤ) : BufferPoolManager × ℤ :=
  ({ bpm with fd2pageno := Function.update bpm.fd2pageno fd (bpm.fd2pageno fd + 1) }, bpm.fd2pageno fd)

/-- `new_page`: the new page and its frame. -/
def newPage (bpm : BufferPoolManager) (fd : ℤ) : BufferPoolManager × Option (PageId × ℕ) :=
  match bpm.findVictimPage with
  | none => (bpm, none)
  | some (bpm, frame) =>
    let (bpm, pageNo) := bpm.allocatePage fd
    let newPageId : PageId := ⟨fd, pageNo⟩
    let bpm := bpm.updatePage frame newPageId
    ((bpm.setPage frame { bpm.pages frame with pinCount := 1 }).pin frame, some (newPageId, frame))

/-- `delete_page`. -/
def deletePage (bpm : BufferPoolManager) (pid : PageId) : BufferPoolManager × Bool :=
  match bpm.pageTable pid with
  | none => (bpm, true)
  | some frame =>
    if (bpm.pages frame).pinCount ≠ 0 then (bpm, false)
    else
      let bpm := (bpm.pin frame).updatePage frame noPage
      ({ bpm with freeList := bpm.freeList ++ [frame] }, true)

/-- A round of `flush_all_pages`. -/
def flushFrame (fd : ℤ) (bpm : BufferPoolManager) (frame : ℕ) : BufferPoolManager :=
  let page := bpm.pages frame
  if page.id.pageNo = INVALID_PAGE_ID then bpm
  else (bpm.writePage ⟨fd, page.id.pageNo⟩ page.data).setPage frame { page with isDirty := false }

/-- `flush_all_pages`, with the frames of the file in the order in which they are found. -/
def flushAllPages (bpm : BufferPoolManager) (fd : ℤ) (frameIds : List ℕ) : BufferPoolManager :=
  frameIds.foldl (flushFrame fd) bpm

/-- A round of `delete_all_pages`. -/
def deleteFrame (fd : ℤ) (bpm : BufferPoolManager) (frame : ℕ) : BufferPoolManager :=
  let page := bpm.pages frame
  if page.id.pageNo = INVALID_PAGE_ID then bpm
  else
    let bpm := (bpm.writePage ⟨fd, page.id.pageNo⟩ page.data).pin frame
    let bpm := bpm.setPage frame ⟨noPage, zeros, false, 0⟩
    { bpm with
      freeList := bpm.freeList ++ [frame]
      pageTable := Function.update bpm.pageTable page.id none }

/-- `delete_all_pages`, with the frames of the file in the order in which they are found. -/
def deleteAllPages (bpm : BufferPoolManager) (fd : ℤ) (frameIds : List ℕ) : BufferPoolManager :=
  frameIds.foldl (deleteFrame fd) bpm

/-- The frames of the entries of `page_table_` for a file, in any order. -/
def Lists (bpm : BufferPoolManager) (fd : ℤ) (frameIds : List ℕ) : Prop :=
  frameIds.Nodup ∧ ∀ frame, frame ∈ frameIds ↔ ∃ pid, bpm.pageTable pid = some frame ∧ pid.fd = fd

end BufferPoolManager

/-! ### Clients -/

/-- A pin that a client holds. -/
structure Pin where
  /-- The page. -/
  pid : PageId
  /-- The frame that the client has a pointer to. -/
  frame : ℕ
  /-- Has the client modified the page through it? -/
  modified : Bool
deriving DecidableEq

/-- The buffer pool and its clients. -/
structure Sys where
  /-- The pool. -/
  bpm : BufferPoolManager
  /-- The pins the clients hold. -/
  pins : List Pin

/-- What a step was. -/
inductive Event where
  /-- `fetch_page`. -/
  | fetch (pid : PageId)
  /-- `new_page`. -/
  | new (fd : ℤ)
  /-- A client writes to a page. -/
  | write (pid : PageId) (data : PageData)
  /-- `unpin_page`. -/
  | unpin (pid : PageId) (isDirty : Bool)
  /-- `flush_page`. -/
  | flush (pid : PageId)
  /-- `flush_all_pages`. -/
  | flushAll (fd : ℤ)
  /-- `delete_page`. -/
  | delete (pid : PageId)
  /-- `delete_all_pages`. -/
  | deleteAll (fd : ℤ)

open BufferPoolManager in
/-- A step of a client. -/
inductive Step (s : Sys) : Event → Sys → Prop where
  /-- It fetches a page, and holds a pin on it then. -/
  | fetch {pid : PageId} {bpm : BufferPoolManager} {frame : ℕ} : s.bpm.fetchPage pid = (bpm, .page frame) →
      Step s (.fetch pid) ⟨bpm, ⟨pid, frame, false⟩ :: s.pins⟩
  /-- It fetches a page and gets none. -/
  | fetchFails {pid : PageId} {bpm : BufferPoolManager} {out : Fetched} : s.bpm.fetchPage pid = (bpm, out) →
      (∀ frame, out ≠ .page frame) → Step s (.fetch pid) ⟨bpm, s.pins⟩
  /-- It allocates a page that was never written on disk, and holds a pin on it then. -/
  | new {fd : ℤ} {bpm : BufferPoolManager} {pid : PageId} {frame : ℕ} : 0 ≤ fd → fd < MAX_FD →
      s.bpm.newPage fd = (bpm, some (pid, frame)) → s.bpm.disk pid = none →
      Step s (.new fd) ⟨bpm, ⟨pid, frame, false⟩ :: s.pins⟩
  /-- It wants to allocate a page, and no frame can be had. -/
  | newFails {fd : ℤ} {bpm : BufferPoolManager} : s.bpm.newPage fd = (bpm, none) → Step s (.new fd) ⟨bpm, s.pins⟩
  /-- It writes to a page that it holds pinned. -/
  | write {A B : List Pin} {h : Pin} (data : PageData) : s.pins = A ++ h :: B →
      Step s (.write h.pid data)
        ⟨s.bpm.setPage h.frame { s.bpm.pages h.frame with data := data }, A ++ { h with modified := true } :: B⟩
  /-- It gives a pin back, with `is_dirty` if it has modified the page. -/
  | unpin {A B : List Pin} {h : Pin} {isDirty : Bool} {bpm : BufferPoolManager} {ok : Bool} : s.pins = A ++ h :: B →
      (h.modified = true → isDirty = true) → s.bpm.unpinPage h.pid isDirty = (bpm, ok) →
      Step s (.unpin h.pid isDirty) ⟨bpm, A ++ B⟩
  /-- It unpins a page that nobody holds pinned. -/
  | unpinNone {pid : PageId} {isDirty : Bool} {bpm : BufferPoolManager} {ok : Bool} : (∀ h ∈ s.pins, h.pid ≠ pid) →
      s.bpm.unpinPage pid isDirty = (bpm, ok) → Step s (.unpin pid isDirty) ⟨bpm, s.pins⟩
  /-- It flushes a page. -/
  | flush {pid : PageId} {bpm : BufferPoolManager} {ok : Bool} : s.bpm.flushPage pid = (bpm, ok) →
      Step s (.flush pid) ⟨bpm, s.pins⟩
  /-- It flushes the pages of a file. -/
  | flushAll {fd : ℤ} {frameIds : List ℕ} : s.bpm.Lists fd frameIds →
      Step s (.flushAll fd) ⟨s.bpm.flushAllPages fd frameIds, s.pins⟩
  /-- It deletes a page from the pool. -/
  | delete {pid : PageId} {bpm : BufferPoolManager} {ok : Bool} : s.bpm.deletePage pid = (bpm, ok) →
      Step s (.delete pid) ⟨bpm, s.pins⟩
  /-- It deletes the pages of a file from the pool, none of which is pinned. -/
  | deleteAll {fd : ℤ} {frameIds : List ℕ} : (∀ h ∈ s.pins, h.pid.fd ≠ fd) → s.bpm.Lists fd frameIds →
      Step s (.deleteAll fd) ⟨s.bpm.deleteAllPages fd frameIds, s.pins⟩

/-- What was last written to the pages, from what was there before. -/
def lastWritten (before : PageId → PageData) (events : List Event) : PageId → PageData :=
  events.foldl (fun contents e => match e with
    | .write pid data => Function.update contents pid data
    | _ => contents) before

end Rmdb.Storage
