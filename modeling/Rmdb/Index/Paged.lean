import Rmdb.Index.NodePage
import Rmdb.Record.Paged
import Rmdb.Index.Scan

/-!
# The index in bytes

`IxIndexHandle` as it works on the bytes of pages in the buffer pool. A node is a page that is pinned in a frame; an operation
fetches it, reads and writes its bytes, and unpins it. The fields of `file_hdr_` that change are in memory while the index is open.

An operation that throws leaves the state as it is then. What is undefined in the source throws here: a page that
`fetch_page` does not return, `++num_pages_` past the largest `int`. A loop or a recursion along the tree takes a bound on its
number of iterations, the number of allocated pages, and throws past it.
-/

namespace Rmdb.Index

open Lib Storage
open Record (InInt intAt setInt)

/-! ### The bytes of a node -/

namespace NodePage

variable (L : NodeLayout)

/-- `is_leaf_page`. -/
def isLeafPage (page : PageData) : Bool := decide (cellAt page 12 ≠ 0)

/-- Write `is_leaf`. -/
def setIsLeaf (page : PageData) (isLeaf : Bool) : PageData := copyTo page 12 [if isLeaf then 1 else 0]

/-- `get_parent_page_no`. -/
def getParentPageNo (page : PageData) : ℤ := intAt page 4

/-- `set_parent_page_no`. -/
def setParentPageNo (page : PageData) (parent : ℤ) : PageData := setInt page 4 parent

/-- `set_prev_leaf`. -/
def setPrevLeaf (page : PageData) (pageNo : ℤ) : PageData := setInt page 16 pageNo

/-- `get_next_leaf`. -/
def getNextLeaf (page : PageData) : ℤ := intAt page 20

/-- `set_next_leaf`. -/
def setNextLeaf (page : PageData) (pageNo : ℤ) : PageData := setInt page 20 pageNo

/-- The bytes of a `Rid`. -/
def ridBytes (rid : Rid) : Bytes := intBytes 4 rid.pageNo ++ intBytes 4 rid.slotNo

/-- `value_at`. -/
def valueAt (page : PageData) (i : ℕ) : ℤ := (ridOf (getRid L page i)).pageNo

/-- `internal_lookup`. -/
def internalLookup (page : PageData) (key : Bytes) : ℤ := valueAt L page (upperBound L page key - 1)

/-- `leaf_lookup`. -/
def leafLookup (page : PageData) (key : Bytes) : Option Rid :=
  if hasKeyAt L page (lowerBound L page key) key then some (ridOf (getRid L page (lowerBound L page key))) else none

/-- `find_child`, of the child with this page number; the source asserts that there is one. -/
def findChild (page : PageData) (child : ℤ) : Option ℕ :=
  (List.range (getSize page).toNat).find? fun i => decide (valueAt L page i = child)

/-- `insert_pair`. -/
def insertPair (page : PageData) (pos : ℕ) (key : Bytes) (rid : Rid) : Option PageData :=
  insertPairs L page pos key (ridBytes rid) 1

/-- `memcpy` to `get_key`. -/
def setKey (page : PageData) (i : ℕ) (key : Bytes) : PageData := copyTo page (L.keyOffset i) (key.take L.keyLen)

end NodePage

namespace Paged

open NodePage
open Record.Paged (INT_MAX)

/-- What is thrown. -/
inductive Error where
  /-- `IndexEntryNotFoundError`. -/
  | indexEntryNotFound
  /-- A page that the buffer pool has no frame for is read, or a node that is not there. -/
  | nullPage
  /-- `InternalError("DiskManager::read_page Error")`. -/
  | readPage
  /-- An assertion fails. -/
  | assertion
  /-- An `int` overflows. -/
  | overflow
  /-- A loop does not end. -/
  | loops
deriving DecidableEq

/-- `IxIndexHandle`, with the buffer pool it works on. -/
structure IxIndexHandle where
  /-- `buffer_pool_manager_` and `disk_manager_`. -/
  bpm : BufferPoolManager
  /-- `fd_`. -/
  fd : ℤ
  /-- `root_page_`. -/
  rootPage : ℤ
  /-- `num_pages_`. -/
  numPages : ℤ
  /-- `first_leaf_`. -/
  firstLeaf : ℤ
  /-- `last_leaf_`. -/
  lastLeaf : ℤ

/-- An operation on an open index. -/
abbrev M := EStateM Error IxIndexHandle

/-- `IxNodeHandle`: the frame of its page. -/
structure IxNodeHandle where
  /-- `page`. -/
  frame : ℕ

/-- The bytes of the page of a node. -/
def IxIndexHandle.data (f : IxIndexHandle) (node : IxNodeHandle) : PageData := (f.bpm.pages node.frame).data

/-- `get_page_no`. -/
def IxIndexHandle.pageNo (f : IxIndexHandle) (node : IxNodeHandle) : ℤ := (f.bpm.pages node.frame).id.pageNo

/-- The bound on the loops along the tree. -/
def IxIndexHandle.bound (f : IxIndexHandle) : ℕ := (f.bpm.fd2pageno f.fd).toNat

/-- Write the bytes of a node. -/
def setData (node : IxNodeHandle) (data : PageData) : M Unit :=
  modify fun f => { f with bpm := f.bpm.setPage node.frame { f.bpm.pages node.frame with data := data } }

/-- Change the bytes of a node. -/
def modifyData (node : IxNodeHandle) (change : PageData → PageData) : M Unit := do
  let f ← get
  setData node (change (f.data node))

/-- Change the bytes of a node, where an assertion may fail. -/
def tryModifyData (node : IxNodeHandle) (change : PageData → Option PageData) : M Unit := do
  let f ← get
  match change (f.data node) with
  | none => throw .assertion
  | some data => setData node data

/-- `unpin_page`, of the page of a node. -/
def unpinPage (node : IxNodeHandle) (isDirty : Bool) : M Bool := do
  let f ← get
  set { f with bpm := (f.bpm.unpinPage (f.bpm.pages node.frame).id isDirty).1 }
  pure (f.bpm.unpinPage (f.bpm.pages node.frame).id isDirty).2

/-- `fetch_node`. -/
def fetchNode (pageNo : ℤ) : M IxNodeHandle := do
  let f ← get
  set { f with bpm := (f.bpm.fetchPage ⟨f.fd, pageNo⟩).1 }
  match (f.bpm.fetchPage ⟨f.fd, pageNo⟩).2 with
  | .page frame => pure ⟨frame⟩
  | .null => throw .nullPage
  | .throws => throw .readPage

/-- `create_node`. -/
def createNode : M IxNodeHandle := do
  let f ← get
  if f.numPages = INT_MAX then throw .overflow
  else
    set { f with bpm := (f.bpm.newPage f.fd).1, numPages := f.numPages + 1 }
    match (f.bpm.newPage f.fd).2 with
    | none => throw .nullPage
    | some page => pure ⟨page.2⟩

variable (L : NodeLayout)

/-! ### Maintaining the structure -/

/-- `maintain_child`. -/
def maintainChild (node : IxNodeHandle) (i : ℕ) : M Unit := do
  let f ← get
  if isLeafPage (f.data node) then pure ()
  else
    let child ← fetchNode (valueAt L (f.data node) i)
    modifyData child (setParentPageNo · (f.pageNo node))
    let _ ← unpinPage child true

/-- The loop of `split` over the children of the new node. -/
def maintainChildren (node : IxNodeHandle) : List ℕ → M Unit
  | [] => pure ()
  | i :: rest => do
    maintainChild L node i
    maintainChildren node rest

/-- The part of `split` that links the new leaf in to the right of the old one. -/
def linkLeaf (node newNode : IxNodeHandle) : M Unit := do
  let f ← get
  modifyData newNode fun data => setNextLeaf (setPrevLeaf data (f.pageNo node)) (getNextLeaf (f.data node))
  if getNextLeaf (f.data node) ≠ IX_LEAF_HEADER_PAGE then
    let next ← fetchNode (getNextLeaf (f.data node))
    modifyData next (setPrevLeaf · (f.pageNo newNode))
    let _ ← unpinPage next true
  modifyData node (setNextLeaf · (f.pageNo newNode))
  modify fun f' => if f'.lastLeaf = f.pageNo node then { f' with lastLeaf := f.pageNo newNode } else f'

/-- `split`. -/
def split (node : IxNodeHandle) : M IxNodeHandle := do
  let newNode ← createNode
  let f ← get
  let data := f.data node
  let splitPos := (getSize data).toNat / 2
  let moveNum := (getSize data).toNat - splitPos
  modifyData newNode fun new => setSize (setParentPageNo (setIsLeaf new (isLeafPage data)) (getParentPageNo data)) 0
  tryModifyData newNode fun new => insertPairs L new 0 (cellsAt data (L.keyOffset splitPos) (moveNum * L.keyLen))
    (cellsAt data (L.ridOffset splitPos) (moveNum * sizeofRid)) moveNum
  modifyData node (setSize · splitPos)
  if isLeafPage data then linkLeaf node newNode
  else
    let f ← get
    maintainChildren L newNode (List.range (getSize (f.data newNode)).toNat)
  pure newNode

/-- `insert_into_parent`, where the old node is the root. -/
def insertIntoRoot (oldNode newNode : IxNodeHandle) : M Unit := do
  let root ← createNode
  let f ← get
  modifyData root fun data => setSize (setParentPageNo (setIsLeaf data false) IX_NO_PAGE) 0
  tryModifyData root fun data => insertPair L data 0 (getKey L (f.data oldNode) 0) ⟨f.pageNo oldNode, -1⟩
  tryModifyData root fun data => insertPair L data 1 (getKey L (f.data newNode) 0) ⟨f.pageNo newNode, -1⟩
  modifyData oldNode (setParentPageNo · (f.pageNo root))
  modifyData newNode (setParentPageNo · (f.pageNo root))
  modify fun f' => { f' with rootPage := f.pageNo root }
  let _ ← unpinPage root true

/-- `insert_into_parent`. -/
def insertIntoParent : ℕ → IxNodeHandle → Bytes → IxNodeHandle → M Unit
  | 0, _, _, _ => throw .loops
  | bound + 1, oldNode, key, newNode => do
    let f ← get
    if getParentPageNo (f.data oldNode) = IX_NO_PAGE then insertIntoRoot L oldNode newNode
    else
      let parent ← fetchNode (getParentPageNo (f.data oldNode))
      let f ← get
      match findChild L (f.data parent) (f.pageNo oldNode) with
      | none => throw .assertion
      | some pos =>
        tryModifyData parent fun data => insertPair L data (pos + 1) key ⟨f.pageNo newNode, -1⟩
        modifyData newNode (setParentPageNo · (f.pageNo parent))
        let f ← get
        if L.maxSize ≤ getSize (f.data parent) then
          let newParent ← split L parent
          let f ← get
          insertIntoParent bound parent (getKey L (f.data newParent) 0) newParent
          let _ ← unpinPage newParent true
        let _ ← unpinPage parent true

/-- `maintain_parent`. A node whose page has been unpinned is still read. -/
def maintainParent : ℕ → IxNodeHandle → M Unit
  | 0, _ => throw .loops
  | bound + 1, curr => do
    let f ← get
    if getParentPageNo (f.data curr) = IX_NO_PAGE then pure ()
    else
      let parent ← fetchNode (getParentPageNo (f.data curr))
      let f ← get
      match findChild L (f.data parent) (f.pageNo curr) with
      | none => throw .assertion
      | some rank =>
        if memcmp L.keyLen (getKey L (f.data parent) rank) (getKey L (f.data curr) 0) = 0 then
          let unpinned ← unpinPage parent true
          if unpinned then pure () else throw .assertion
        else
          setData parent (setKey L (f.data parent) rank (getKey L (f.data curr) 0))
          let unpinned ← unpinPage parent true
          if unpinned then maintainParent bound parent else throw .assertion

/-! ### Searching -/

/-- The loop of `find_leaf_page`. -/
def findLeafLoop (key : Bytes) (findFirst : Bool) : ℕ → IxNodeHandle → M IxNodeHandle
  | 0, _ => throw .loops
  | bound + 1, node => do
    let f ← get
    if isLeafPage (f.data node) then pure node
    else
      let _ ← unpinPage node false
      let child ← fetchNode (if findFirst then valueAt L (f.data node) 0 else internalLookup L (f.data node) key)
      findLeafLoop key findFirst bound child

/-- `find_leaf_page`; `nullptr` is `none`. -/
def findLeafPage (key : Bytes) (findFirst : Bool) : M (Option IxNodeHandle) := do
  let f ← get
  if f.rootPage = IX_NO_PAGE then pure none
  else
    let root ← fetchNode f.rootPage
    let leaf ← findLeafLoop L key findFirst f.bound root
    pure (some leaf)

/-- `get_value`: what it puts into `result`. -/
def getValue (key : Bytes) : M (Option Rid) := do
  match ← findLeafPage L key false with
  | none => pure none
  | some leaf =>
    let f ← get
    let _ ← unpinPage leaf false
    pure (leafLookup L (f.data leaf) key)

/-- `leaf_end`. -/
def leafEnd : M Iid := do
  let f ← get
  let node ← fetchNode f.lastLeaf
  let f' ← get
  let _ ← unpinPage node false
  pure ⟨f.lastLeaf, (getSize (f'.data node)).toNat⟩

/-- The loop of `lower_bound` and `upper_bound`. -/
def skipLeaves : ℕ → IxNodeHandle → ℤ → ℕ → M Iid
  | 0, _, _, _ => throw .loops
  | bound + 1, leaf, pageNo, pos => do
    let f ← get
    if pos = getSize (f.data leaf) ∧ pageNo ≠ f.lastLeaf then
      let _ ← unpinPage leaf false
      let next ← fetchNode (getNextLeaf (f.data leaf))
      let f' ← get
      skipLeaves bound next (f'.pageNo next) 0
    else
      let _ ← unpinPage leaf false
      pure ⟨pageNo, pos⟩

/-- `lower_bound` and `upper_bound`: they differ in the search inside the leaf. -/
def boundBy (search : PageData → ℕ) (key : Bytes) : M Iid := do
  match ← findLeafPage L key false with
  | none => leafEnd
  | some leaf =>
    let f ← get
    skipLeaves f.bound leaf (f.pageNo leaf) (search (f.data leaf))

/-- `lower_bound`. -/
def lowerBound (key : Bytes) : M Iid := boundBy L (NodePage.lowerBound L · key) key

/-- `upper_bound`. -/
def upperBound (key : Bytes) : M Iid := boundBy L (NodePage.upperBound L · key) key

/-- `get_rid`. -/
def getRid (iid : Iid) : M Rid := do
  let node ← fetchNode iid.pageNo
  let f ← get
  if getSize (f.data node) ≤ iid.slotNo then throw .indexEntryNotFound
  else
    let _ ← unpinPage node false
    let f ← get
    pure (ridOf (NodePage.getRid L (f.data node) iid.slotNo))

/-- `IxScan::next`, of a scan up to `last`. -/
def ixNext (last iid : Iid) : M Iid := do
  if iid = last then throw .assertion
  else
    let node ← fetchNode iid.pageNo
    let f ← get
    if isLeafPage (f.data node) ∧ iid.slotNo < getSize (f.data node) then
      let _ ← unpinPage node false
      if iid.pageNo ≠ f.lastLeaf ∧ (iid.slotNo + 1 : ℤ) = getSize (f.data node) then pure ⟨getNextLeaf (f.data node), 0⟩
      else pure ⟨iid.pageNo, iid.slotNo + 1⟩
    else throw .assertion

/-! ### Inserting and deleting -/

/-- `insert_entry`. -/
def insertEntry (key : Bytes) (value : Rid) : M ℤ := do
  match ← findLeafPage L key false with
  | none => throw .nullPage
  | some leaf =>
    let f ← get
    let oldSize := getSize (f.data leaf)
    tryModifyData leaf fun data => (insert L data key (ridBytes value)).map (·.1)
    let f ← get
    if getSize (f.data leaf) = oldSize then
      let _ ← unpinPage leaf false
      pure (f.pageNo leaf)
    else
      if L.maxSize ≤ getSize (f.data leaf) then
        let newLeaf ← split L leaf
        let f ← get
        insertIntoParent L f.bound leaf (getKey L (f.data newLeaf) 0) newLeaf
        let _ ← unpinPage newLeaf true
      else maintainParent L f.bound leaf
      let f ← get
      let _ ← unpinPage leaf true
      pure (f.pageNo leaf)

/-- `delete_entry`. -/
def deleteEntry (key : Bytes) : M Bool := do
  match ← findLeafPage L key false with
  | none => pure false
  | some leaf =>
    let f ← get
    let oldSize := getSize (f.data leaf)
    let oldPos := NodePage.lowerBound L (f.data leaf) key
    tryModifyData leaf fun data => (remove L data key).map (·.1)
    let f ← get
    if getSize (f.data leaf) = oldSize then
      let _ ← unpinPage leaf false
      pure false
    else
      if 0 < getSize (f.data leaf) ∧ oldPos = 0 then maintainParent L f.bound leaf
      let _ ← unpinPage leaf true
      pure true

/-! ### Scanning -/

/-- The walk of an executor along an `IxScan` up to `last`. -/
def scan (last : Iid) : ℕ → Iid → M (List Rid)
  | 0, _ => throw .loops
  | bound + 1, iid => do
    if iid = last then pure []
    else
      let rid ← getRid L iid
      let next ← ixNext last iid
      let rest ← scan last bound next
      pure (rid :: rest)

/-- The scan from one key to another. -/
def rangeScan (lo hi : Bytes) : M (List Rid) := do
  let first ← lowerBound L lo
  let last ← upperBound L hi
  let f ← get
  scan L last (f.bound * L.maxSize + 1) first

/-! ### `IxManager` -/

/-- A page without pairs that `create_index` writes. -/
def emptyLeaf (neighbour : ℤ) : PageData :=
  let page := setSize (setParentPageNo (setInt zeros 0 IX_NO_PAGE) IX_NO_PAGE) 0
  setNextLeaf (setPrevLeaf (setIsLeaf page true) neighbour) neighbour

/-- `create_index`: the file that it writes, or `InvalidColLengthError`. -/
def createIndex (cols : List (ColType × ℕ)) : Except ℕ Pages :=
  if IX_MAX_COL_LEN < colTotLen cols then .error (colTotLen cols)
  else
    let file := writeBytes (fun _ => none) IX_FILE_HDR_PAGE (createHdr cols).serialize
    let file := Function.update file IX_LEAF_HEADER_PAGE (some (emptyLeaf IX_INIT_ROOT_PAGE))
    .ok (Function.update file IX_INIT_ROOT_PAGE (some (emptyLeaf IX_LEAF_HEADER_PAGE)))

/-- `open_index`, of a file with so many pages, with the file descriptor that the system gives it. A header that runs on past its page
is read from memory that is not there, which is `none`. -/
def openIndex (bpm : BufferPoolManager) (file : Pages) (filePages fd : ℤ) : Option IxIndexHandle :=
  (openHdr file).map fun hdr =>
    { bpm := { bpm with
        disk := fun p => if p.fd = fd then file p.pageNo else bpm.disk p
        fd2pageno := Function.update bpm.fd2pageno fd (max filePages hdr.numPages) }
      fd := fd
      rootPage := hdr.rootPage
      numPages := hdr.numPages
      firstLeaf := hdr.firstLeaf
      lastLeaf := hdr.lastLeaf }

/-- `file_hdr_` of an open index. -/
def IxIndexHandle.fileHdr (f : IxIndexHandle) : IxFileHdr :=
  { createHdr L.cols with
    numPages := f.numPages
    rootPage := f.rootPage
    btreeOrder := L.btreeOrder
    firstLeaf := f.firstLeaf
    lastLeaf := f.lastLeaf }

/-- `close_index`, with the frames of the file in the order in which they are found: the pool and the file after it. -/
def closeIndex (f : IxIndexHandle) (frameIds : List ℕ) : BufferPoolManager × Pages :=
  let file := writeBytes (fun pageNo => f.bpm.disk ⟨f.fd, pageNo⟩) IX_FILE_HDR_PAGE (f.fileHdr L).serialize
  let bpm := { f.bpm with disk := fun p => if p.fd = f.fd then file p.pageNo else f.bpm.disk p }
  let bpm := bpm.deleteAllPages f.fd frameIds
  (bpm, fun pageNo => bpm.disk ⟨f.fd, pageNo⟩)

/-! ### Clients -/

/-- What a client asks of an open index. -/
inductive Call (K : Type) where
  /-- `insert_entry`. -/
  | insert (key : K) (value : Rid)
  /-- `delete_entry`. -/
  | delete (key : K)
  /-- `get_value`. -/
  | getValue (key : K)
  /-- An index scan between two keys. -/
  | scan (lo hi : K)

/-- What a call returns. -/
inductive Answer where
  /-- The page of the leaf. -/
  | inserted (pageNo : ℤ)
  /-- Whether the key was there. -/
  | deleted (there : Bool)
  /-- The rid under the key. -/
  | value (rid : Option Rid)
  /-- The rids between the keys. -/
  | rids (rids : List Rid)
deriving DecidableEq

/-- One call, with keys in bytes. -/
def Call.run {K : Type} (bytes : K → Bytes) : Call K → M Answer
  | .insert key value => do
    let pageNo ← insertEntry L (bytes key) value
    pure (.inserted pageNo)
  | .delete key => do
    let there ← deleteEntry L (bytes key)
    pure (.deleted there)
  | .getValue key => do
    let rid ← Paged.getValue L (bytes key)
    pure (.value rid)
  | .scan lo hi => do
    let rids ← rangeScan L (bytes lo) (bytes hi)
    pure (.rids rids)

/-- How a call ends, and the state that it leaves. -/
def Call.outcome {K : Type} (bytes : K → Bytes) (call : Call K) (f : IxIndexHandle) : Except Error Answer × IxIndexHandle :=
  match call.run L bytes f with
  | .ok answer f' => (.ok answer, f')
  | .error e f' => (.error e, f')

/-- Calls one after another, of a client that catches what they throw. -/
def runCalls {K : Type} (bytes : K → Bytes) : List (Call K) → IxIndexHandle → List (Except Error Answer) × IxIndexHandle
  | [], f => ([], f)
  | call :: calls, f =>
    let (a, f) := call.outcome L bytes f
    let (answers, f) := runCalls bytes calls f
    (a :: answers, f)

end Paged

end Rmdb.Index
