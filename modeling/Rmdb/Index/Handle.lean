import Rmdb.Index.Node
import Mathlib.Logic.Function.Basic

/-!
# The index handle

`IxIndexHandle`: a B+ tree of node pages in one file. The model keeps the pages as a
partial function from page numbers, the fields of `IxFileHdr` that the operations
read or write, and the disk manager's counter of allocated pages (`fd2pageno`). A
pointer to a node is its page number; the buffer pool is transparent, and the
number of a freshly allocated page is the counter's value.

The operations are those of the source, in the order of its statements. A loop or a
recursion that climbs or descends the tree takes a bound on its number of
iterations, the number of allocated pages; `none` is a failed assertion, a page that
is not there, or running past that bound, and `Index.Map` shows that none of these
happens.
-/

namespace Rmdb.Index

/-- `IxIndexHandle` with its `IxFileHdr` and its pages. -/
structure IxIndexHandle (K : Type) where
  /-- `root_page_`. -/
  rootPage : ℤ
  /-- `num_pages_`. -/
  numPages : ℤ
  /-- `btree_order_`. -/
  btreeOrder : ℕ
  /-- `first_leaf_`. -/
  firstLeaf : ℤ
  /-- `last_leaf_`. -/
  lastLeaf : ℤ
  /-- The disk manager's next page number for this file. -/
  fd2pageno : ℤ
  /-- The pages. -/
  pages : ℤ → Option (Node K)

namespace IxIndexHandle

variable {K : Type}

/-- `get_max_size`. -/
def maxSize (ih : IxIndexHandle K) : ℕ := ih.btreeOrder + 1

/-- `is_empty`. -/
def isEmpty (ih : IxIndexHandle K) : Bool := ih.rootPage = IX_NO_PAGE

/-- `fetch_node`. -/
def fetchNode (ih : IxIndexHandle K) (pageNo : ℤ) : Option (Node K) := ih.pages pageNo

/-- Write a node back to its page. -/
def setPage (ih : IxIndexHandle K) (pageNo : ℤ) (n : Node K) : IxIndexHandle K :=
  { ih with pages := Function.update ih.pages pageNo (some n) }

@[simp] theorem setPage_maxSize (ih : IxIndexHandle K) (pageNo : ℤ) (n : Node K) :
    (ih.setPage pageNo n).maxSize = ih.maxSize := rfl

@[simp] theorem setPage_fd2pageno (ih : IxIndexHandle K) (pageNo : ℤ) (n : Node K) :
    (ih.setPage pageNo n).fd2pageno = ih.fd2pageno := rfl

/-- Change the node of a page in place. -/
def modifyPage (ih : IxIndexHandle K) (pageNo : ℤ) (f : Node K → Node K) : Option (IxIndexHandle K) :=
  (ih.fetchNode pageNo).map fun n => ih.setPage pageNo (f n)

/-- `create_node`: a new page, zeroed. -/
def createNode (ih : IxIndexHandle K) : IxIndexHandle K × ℤ :=
  ({ ih with
      numPages := ih.numPages + 1
      fd2pageno := ih.fd2pageno + 1
      pages := Function.update ih.pages ih.fd2pageno (some ⟨false, 0, 0, 0, []⟩) },
    ih.fd2pageno)

/-- `IxManager::create_index` followed by `open_index`: the leaf header page and one empty leaf, the root. -/
def createIndex (btreeOrder : ℕ) : IxIndexHandle K where
  rootPage := IX_INIT_ROOT_PAGE
  numPages := IX_INIT_NUM_PAGES
  btreeOrder := btreeOrder
  firstLeaf := IX_INIT_ROOT_PAGE
  lastLeaf := IX_INIT_ROOT_PAGE
  fd2pageno := IX_INIT_NUM_PAGES
  pages := fun p =>
    if p = IX_LEAF_HEADER_PAGE then some ⟨true, IX_NO_PAGE, IX_INIT_ROOT_PAGE, IX_INIT_ROOT_PAGE, []⟩
    else if p = IX_INIT_ROOT_PAGE then some ⟨true, IX_NO_PAGE, IX_LEAF_HEADER_PAGE, IX_LEAF_HEADER_PAGE, []⟩
    else none

/-! ### Maintaining the structure -/

/-- `maintain_child`: make the node the parent of its `i`th child. -/
def maintainChild (ih : IxIndexHandle K) (page : ℤ) (i : ℕ) : Option (IxIndexHandle K) := do
  let node ← ih.fetchNode page
  if node.isLeaf then some ih
  else do
    let child ← node.valueAt i
    ih.modifyPage child fun c => { c with parent := page }

/-- `split`: move the upper half of a node to a new page on its right. -/
def split (ih : IxIndexHandle K) (page : ℤ) : Option (IxIndexHandle K × ℤ) := do
  let node ← ih.fetchNode page
  let (ih, newPage) := ih.createNode
  let splitPos := node.size / 2
  let newNode ← Node.insertPairs ih.maxSize ⟨node.isLeaf, node.parent, 0, 0, []⟩ 0 (node.pairs.drop splitPos)
  let node' := { node with pairs := node.pairs.take splitPos }
  if node.isLeaf then do
    let ih := ih.setPage newPage { newNode with prevLeaf := page, nextLeaf := node.nextLeaf }
    let ih ← if node.nextLeaf ≠ IX_LEAF_HEADER_PAGE then
        ih.modifyPage node.nextLeaf fun next => { next with prevLeaf := newPage }
      else some ih
    let ih := ih.setPage page { node' with nextLeaf := newPage }
    some ({ ih with lastLeaf := if ih.lastLeaf = page then newPage else ih.lastLeaf }, newPage)
  else do
    let ih := (ih.setPage newPage newNode).setPage page node'
    let ih ← (List.range newNode.size).foldlM (fun ih i => ih.maintainChild newPage i) ih
    some (ih, newPage)

/-- `insert_into_parent`: link `newPage` into the parent, to the right of `oldPage`. -/
def insertIntoParent : ℕ → IxIndexHandle K → ℤ → K → ℤ → Option (IxIndexHandle K)
  | 0, _, _, _, _ => none
  | bound + 1, ih, oldPage, key, newPage => do
    let oldNode ← ih.fetchNode oldPage
    let newNode ← ih.fetchNode newPage
    if oldNode.isRootPage then do
      let (ih, root) := ih.createNode
      let oldKey ← oldNode.keyAt 0
      let newKey ← newNode.keyAt 0
      let rootNode ← Node.insertPair ih.maxSize ⟨false, IX_NO_PAGE, 0, 0, []⟩ 0 oldKey ⟨oldPage, -1⟩
      let rootNode ← Node.insertPair ih.maxSize rootNode 1 newKey ⟨newPage, -1⟩
      let ih := ih.setPage root rootNode
      let ih ← ih.modifyPage oldPage fun n => { n with parent := root }
      let ih ← ih.modifyPage newPage fun n => { n with parent := root }
      some { ih with rootPage := root }
    else do
      let parentPage := oldNode.parent
      let parent ← ih.fetchNode parentPage
      let pos ← parent.findChild oldPage
      let parent ← parent.insertPair ih.maxSize (pos + 1) key ⟨newPage, -1⟩
      let ih := ih.setPage parentPage parent
      let ih ← ih.modifyPage newPage fun n => { n with parent := parentPage }
      if ih.maxSize ≤ parent.size then do
        let (ih, newParent) ← ih.split parentPage
        let newKey ← (← ih.fetchNode newParent).keyAt 0
        insertIntoParent bound ih parentPage newKey newParent
      else some ih

section Ordered

variable [LinearOrder K]

/-- `maintain_parent`: refresh the separators above a node, until one is already right. -/
def maintainParent : ℕ → IxIndexHandle K → ℤ → Option (IxIndexHandle K)
  | 0, _, _ => none
  | bound + 1, ih, curr => do
    let node ← ih.fetchNode curr
    if node.parent = IX_NO_PAGE then some ih
    else do
      let parent ← ih.fetchNode node.parent
      let rank ← parent.findChild curr
      let parentKey ← parent.keyAt rank
      let childFirstKey ← node.keyAt 0
      if parentKey = childFirstKey then some ih
      else maintainParent bound (ih.setPage node.parent (parent.setKey rank childFirstKey)) node.parent

/-! ### Searching -/

/-- The loop of `find_leaf_page`. -/
def findLeafLoop (ih : IxIndexHandle K) (key : K) (findFirst : Bool) : ℕ → ℤ → Option ℤ
  | 0, _ => none
  | bound + 1, page => do
    let node ← ih.fetchNode page
    if node.isLeaf then some page
    else do
      let child ← if findFirst then node.valueAt 0 else node.internalLookup key
      findLeafLoop ih key findFirst bound child

/-- `find_leaf_page`: the leaf for a key, or `nullptr` (`some none`) in an empty tree. -/
def findLeafPage (ih : IxIndexHandle K) (key : K) (findFirst : Bool) : Option (Option ℤ) :=
  if ih.isEmpty then some none
  else (ih.findLeafLoop key findFirst ih.fd2pageno.toNat ih.rootPage).map some

/-- `get_value`: the rid under a key, if the key is there. -/
def getValue (ih : IxIndexHandle K) (key : K) : Option (Option Rid) := do
  match ← ih.findLeafPage key false with
  | none => some none
  | some leaf => do
    let node ← ih.fetchNode leaf
    some (node.leafLookup key)

/-! ### Inserting and deleting -/

/-- `insert_entry`: the page of the leaf inserted into, and the new tree. -/
def insertEntry (ih : IxIndexHandle K) (key : K) (value : Rid) : Option (IxIndexHandle K × ℤ) := do
  let leaf ← (← ih.findLeafPage key false)
  let node ← ih.fetchNode leaf
  let node' ← node.insert ih.maxSize key value
  if node'.size = node.size then some (ih, leaf)
  else do
    let ih := ih.setPage leaf node'
    if ih.maxSize ≤ node'.size then do
      let (ih, newLeaf) ← ih.split leaf
      let newKey ← (← ih.fetchNode newLeaf).keyAt 0
      let ih ← insertIntoParent ih.fd2pageno.toNat ih leaf newKey newLeaf
      some (ih, leaf)
    else do
      let ih ← maintainParent ih.fd2pageno.toNat ih leaf
      some (ih, leaf)

/-- `delete_entry`: whether the key was there, and the new tree. -/
def deleteEntry (ih : IxIndexHandle K) (key : K) : Option (IxIndexHandle K × Bool) := do
  match ← ih.findLeafPage key false with
  | none => some (ih, false)
  | some leaf => do
    let node ← ih.fetchNode leaf
    let oldPos := node.lowerBound key
    let node' ← node.remove key
    if node'.size = node.size then some (ih, false)
    else do
      let ih := ih.setPage leaf node'
      if 0 < node'.size ∧ oldPos = 0 then do
        let ih ← maintainParent ih.fd2pageno.toNat ih leaf
        some (ih, true)
      else some (ih, true)

end Ordered

end IxIndexHandle

end Rmdb.Index
