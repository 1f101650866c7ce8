import Miniob.Storage.Index.Node

/-!
# The B+ tree handler

`BplusTreeHandler` as programs over the buffer pool: searching, inserting with splits that
propagate upwards through `insert_entry_into_parent`, deleting with the pair of mutually recursive
templates `coalesce_or_redistribute` and `coalesce`.

A frame is named by its page number. `file_header_` is the state of `TreeM`. A failed `assert`, a
page read as the wrong kind of node and a loop that has used up its `fuel` end a program without
a result. Failing buffer pool calls take the branches of the source.
-/

namespace Miniob.Storage.Index

open Miniob.Lib
open Miniob.Storage.BufferPool (PoolCall PoolProg)

variable {K : Type}

/-- Programs of a tree handler: pool calls with the handler's copy of the index header. -/
abbrev TreeM (K : Type) := StateT IndexFileHeader (PoolProg (IndexPage K))

/-- Run a handler program. -/
def exec {σ α : Type} (h : Handler (PoolCall (IndexPage K)) σ) (x : TreeM K α)
    (header : IndexFileHeader) (s : σ) : Option ((α × IndexFileHeader) × σ) :=
  Prog.run h (x.run header) s

namespace TreeM

/-- A failed assertion. -/
def fail {α : Type} : TreeM K α := StateT.lift Prog.stop

/-- The value of an option that an assertion says is there. -/
def assertSome {α : Type} : Option α → TreeM K α
  | some a => pure a
  | none => fail

/-- A condition that is asserted. -/
def assert (b : Bool) : TreeM K Unit := if b then pure () else fail

end TreeM

/-! ## Calls on the pool -/

/-- `disk_buffer_pool_->get_this_page` -/
def getThisPage (pageNum : Int) : TreeM K RC := StateT.lift (BufferPool.getThisPage pageNum)

/-- The data of a pinned frame. -/
def page (frame : Int) : TreeM K (IndexPage K) := StateT.lift (BufferPool.data frame)

/-- Overwrite the data of a pinned frame. -/
def setPage (frame : Int) (n : IndexPage K) : TreeM K Unit :=
  StateT.lift (BufferPool.setData frame n)

/-- `frame->mark_dirty` -/
def markDirty (frame : Int) : TreeM K Unit := StateT.lift (BufferPool.markDirty frame)

/-- `disk_buffer_pool_->unpin_page` -/
def unpinPage (frame : Int) : TreeM K RC := StateT.lift (BufferPool.unpinPage frame)

/-- `disk_buffer_pool_->allocate_page` -/
def allocatePage : TreeM K (RC × Int) := StateT.lift BufferPool.allocatePage

/-- `disk_buffer_pool_->dispose_page` -/
def disposePage (pageNum : Int) : TreeM K RC := StateT.lift (BufferPool.disposePage pageNum)

/-- Source: `bplus_tree.cpp`, `BplusTreeHandler::sync` -/
def sync : TreeM K RC := StateT.lift BufferPool.flushAllPages

/-! ## Access to nodes -/

/-- The frame as a `LeafIndexNodeHandler`. -/
def leafNode (frame : Int) : TreeM K (LeafIndexNode K) := do
  match ← page frame with
  | .leaf n => pure n
  | _ => TreeM.fail

/-- The frame as an `InternalIndexNodeHandler`. -/
def internalNode (frame : Int) : TreeM K (InternalIndexNode K) := do
  match ← page frame with
  | .internal n => pure n
  | _ => TreeM.fail

/-- Change a leaf in place. -/
def modifyLeaf (frame : Int) (f : LeafIndexNode K → LeafIndexNode K) : TreeM K Unit := do
  let n ← leafNode frame
  setPage frame (.leaf (f n))

/-- Change an internal node in place. -/
def modifyInternal (frame : Int) (f : InternalIndexNode K → InternalIndexNode K) :
    TreeM K Unit := do
  let n ← internalNode frame
  setPage frame (.internal (f n))

/-- Source: `bplus_tree.cpp`, `IndexNodeHandler::set_parent_page_num` -/
def setParentPageNum (frame pageNum : Int) : TreeM K Unit := do
  let n ← page frame
  setPage frame (n.setParentPageNum pageNum)

/-- The key of an item, which must exist. Source: `bplus_tree.cpp`, `LeafIndexNodeHandler::key_at`,
`InternalIndexNodeHandler::key_at` -/
def keyAt (frame : Int) (index : ℕ) : TreeM K K := do
  let n ← page frame
  TreeM.assertSome (n.keyAt? index)

/-- A child page, which must exist. Source: `bplus_tree.cpp`,
`InternalIndexNodeHandler::value_at` -/
def valueAt (n : InternalIndexNode K) (index : ℕ) : TreeM K Int :=
  TreeM.assertSome (n.items[index]?.map Prod.snd)

/-! ## Moving items between nodes -/

/-- The loop of `copy_from` that makes a node the parent of the copied children.
Source: `bplus_tree.cpp`, `InternalIndexNodeHandler::copy_from` -/
def setChildrenParent (thisPageNum : Int) : List (K × Int) → TreeM K RC
  | [] => pure .success
  | (_, pageNum) :: items => do
    let rc ← getThisPage pageNum
    if rc ≠ .success then
      return rc
    setParentPageNum pageNum thisPageNum
    markDirty pageNum
    let _ ← unpinPage pageNum
    setChildrenParent thisPageNum items

/-- Copy items to the right end of an internal node; the size grows after the children have been
visited.
Source: `bplus_tree.cpp`, `InternalIndexNodeHandler::copy_from` -/
def copyFrom (frame : Int) (items : List (K × Int)) : TreeM K RC := do
  let rc ← setChildrenParent frame items
  if rc ≠ .success then
    return rc
  modifyInternal frame fun n => { n with items := n.items ++ items }
  return rc

/-- Put one item before the others of an internal node.
Source: `bplus_tree.cpp`, `InternalIndexNodeHandler::preappend` -/
def preappend (frame : Int) (item : K × Int) : TreeM K RC := do
  let rc ← getThisPage item.2
  if rc ≠ .success then
    return rc
  setParentPageNum item.2 frame
  markDirty item.2
  let _ ← unpinPage item.2
  modifyInternal frame fun n => { n with items := item :: n.items }
  return .success

/-- Move the upper half of a node to the (empty) node `other`.
Source: `bplus_tree.cpp`, `LeafIndexNodeHandler::move_half_to`,
`InternalIndexNodeHandler::move_half_to` -/
def moveHalfTo (kind : NodeKind) (frame other : Int) : TreeM K RC :=
  match kind with
  | .leaf => do
    let n ← leafNode frame
    let moveIndex := n.items.length / 2
    modifyLeaf other fun o => { o with items := n.items.drop moveIndex ++ o.items }
    modifyLeaf frame fun n => { n with items := n.items.take moveIndex }
    return .success
  | .internal => do
    let n ← internalNode frame
    let moveIndex := n.items.length / 2
    let rc ← copyFrom other (n.items.drop moveIndex)
    if rc ≠ .success then
      return rc
    modifyInternal frame fun n => { n with items := n.items.take moveIndex }
    return rc

/-- Move the first item of a node to the end of `other`.
Source: `bplus_tree.cpp`, `LeafIndexNodeHandler::move_first_to_end`,
`InternalIndexNodeHandler::move_first_to_end` -/
def moveFirstToEnd (kind : NodeKind) (frame other : Int) : TreeM K RC :=
  match kind with
  | .leaf => do
    let n ← leafNode frame
    let item ← TreeM.assertSome n.items[0]?
    modifyLeaf other fun o => { o with items := o.items ++ [item] }
    modifyLeaf frame fun n => { n with items := n.items.drop 1 }
    return .success
  | .internal => do
    let n ← internalNode frame
    let item ← TreeM.assertSome n.items[0]?
    let rc ← copyFrom other [item]
    if rc ≠ .success then
      return rc
    modifyInternal frame fun n => { n with items := n.items.drop 1 }
    return rc

/-- Move the last item of a node to the front of `other`.
Source: `bplus_tree.cpp`, `LeafIndexNodeHandler::move_last_to_front`,
`InternalIndexNodeHandler::move_last_to_front` -/
def moveLastToFront (kind : NodeKind) (frame other : Int) : TreeM K RC :=
  match kind with
  | .leaf => do
    let n ← leafNode frame
    let item ← TreeM.assertSome n.items.getLast?
    modifyLeaf other fun o => { o with items := item :: o.items }
    modifyLeaf frame fun n => { n with items := n.items.dropLast }
    return .success
  | .internal => do
    let n ← internalNode frame
    let item ← TreeM.assertSome n.items.getLast?
    let rc ← preappend other item
    if rc ≠ .success then
      return rc
    modifyInternal frame fun n => { n with items := n.items.dropLast }
    return rc

/-- Move all items of a node to the end of the node `other` to its left. A leaf is also taken out
of the list of leaves.
Source: `bplus_tree.cpp`, `LeafIndexNodeHandler::move_to`, `InternalIndexNodeHandler::move_to` -/
def moveTo (kind : NodeKind) (frame other : Int) : TreeM K RC :=
  match kind with
  | .leaf => do
    let n ← leafNode frame
    modifyLeaf other fun o => { o with items := o.items ++ n.items }
    modifyLeaf frame fun n => { n with items := [] }
    modifyLeaf other fun o => { o with nextBrother := n.nextBrother }
    let nextRightPageNum := n.nextBrother
    if nextRightPageNum ≠ bpInvalidPageNum then
      let rc ← getThisPage nextRightPageNum
      if rc ≠ .success then
        return rc
      modifyLeaf nextRightPageNum fun r => { r with prevBrother := other }
      markDirty nextRightPageNum
      let _ ← unpinPage nextRightPageNum
    return .success
  | .internal => do
    let n ← internalNode frame
    let rc ← copyFrom other n.items
    if rc ≠ .success then
      return rc
    modifyInternal frame fun n => { n with items := [] }
    return .success

/-! ## Searching -/

/-- Source: `bplus_tree.cpp`, `BplusTreeHandler::is_empty` -/
def isEmpty : TreeM K Bool := do
  return (← get).rootPage = bpInvalidPageNum

/-- The loop of `find_leaf_internal`: go down from the pinned frame to a leaf. -/
def findLeafLoop (childPageGetter : InternalIndexNode K → TreeM K Int) :
    ℕ → Int → TreeM K (RC × Int)
  | 0, _ => TreeM.fail
  | fuel + 1, frame => do
    if (← page frame).isLeaf then
      return (.success, frame)
    let pageNum ← childPageGetter (← internalNode frame)
    let _ ← unpinPage frame
    let rc ← getThisPage pageNum
    if rc ≠ .success then
      return (rc, pageNum)
    findLeafLoop childPageGetter fuel pageNum

/-- The pinned leaf that `child_page_getter` leads to.
Source: `bplus_tree.cpp`, `BplusTreeHandler::find_leaf_internal` -/
def findLeafInternal (fuel : ℕ) (childPageGetter : InternalIndexNode K → TreeM K Int) :
    TreeM K (RC × Int) := do
  if ← isEmpty then
    return (.empty, bpInvalidPageNum)
  let rootPage := (← get).rootPage
  let rc ← getThisPage rootPage
  if rc ≠ .success then
    return (rc, rootPage)
  findLeafLoop childPageGetter fuel rootPage

/-- Source: `bplus_tree.cpp`, `BplusTreeHandler::find_leaf` -/
def findLeaf (comparator : K → K → Int) (fuel : ℕ) (key : K) : TreeM K (RC × Int) :=
  findLeafInternal fuel fun n => valueAt n (n.lookup comparator key).1

/-- Source: `bplus_tree.cpp`, `BplusTreeHandler::left_most_page` -/
def leftMostPage (fuel : ℕ) : TreeM K (RC × Int) :=
  findLeafInternal fuel fun n => valueAt n 0

/-- Source: `bplus_tree.cpp`, `BplusTreeHandler::right_most_page` -/
def rightMostPage (fuel : ℕ) : TreeM K (RC × Int) :=
  findLeafInternal fuel fun n => valueAt n (n.items.length - 1)

/-- The loop of `print_leafs`: the items of the pinned leaf and of those after it. -/
def printLeafsLoop : ℕ → Int → TreeM K (RC × List (K × RID))
  | 0, _ => TreeM.fail
  | fuel + 1, frame => do
    let leafNode ← leafNode frame
    let nextPageNum := leafNode.nextBrother
    let _ ← unpinPage frame
    if nextPageNum = bpInvalidPageNum then
      return (.success, leafNode.items)
    let rc ← getThisPage nextPageNum
    if rc ≠ .success then
      return (rc, leafNode.items)
    let (rc, items) ← printLeafsLoop fuel nextPageNum
    return (rc, leafNode.items ++ items)

/-- The entries read by following `next_brother` from the leftmost leaf; the source writes them to
the log.
Source: `bplus_tree.cpp`, `BplusTreeHandler::print_leafs` -/
def printLeafs (fuel : ℕ) : TreeM K (RC × List (K × RID)) := do
  if ← isEmpty then
    return (.success, [])
  let (rc, frame) ← leftMostPage fuel
  if rc ≠ .success then
    return (rc, [])
  printLeafsLoop fuel frame

/-! ## Creating -/

/-- The first page of the index. Source: `bplus_tree.cpp`, `FIRST_INDEX_PAGE` -/
def firstIndexPage : Int := 1

/-- The header of a new index; a negative size stands for the capacity of a page. -/
def newFileHeader (attrLength internalMaxSize leafMaxSize : Int) : IndexFileHeader where
  rootPage := bpInvalidPageNum
  internalMaxSize :=
    (if internalMaxSize < 0 then calcInternalPageCapacity attrLength else internalMaxSize).toNat
  leafMaxSize := (if leafMaxSize < 0 then calcLeafPageCapacity attrLength else leafMaxSize).toNat

/-- Make an index in a new file.
Source: `bplus_tree.cpp`, `BplusTreeHandler::create` -/
def create (attrLength internalMaxSize leafMaxSize : Int) : TreeM K RC := do
  let (rc, headerFrame) ← allocatePage
  if rc ≠ .success then
    return rc
  if headerFrame ≠ firstIndexPage then
    return .internal
  let fileHeader := newFileHeader attrLength internalMaxSize leafMaxSize
  setPage headerFrame (.header fileHeader)
  markDirty headerFrame
  set fileHeader
  let _ ← unpinPage headerFrame
  return .success

/-! ## Inserting -/

/-- Write the root page number to the header page.
Source: `bplus_tree.cpp`, `BplusTreeHandler::update_root_page_num` -/
def updateRootPageNum : TreeM K RC := do
  let rc ← getThisPage firstIndexPage
  if rc ≠ .success then
    return rc
  let rootPage := (← get).rootPage
  match ← page firstIndexPage with
  | .header h => setPage firstIndexPage (.header { h with rootPage := rootPage })
  | _ => TreeM.fail
  markDirty firstIndexPage
  let _ ← unpinPage firstIndexPage
  return rc

/-- The first entry of an empty tree.
Source: `bplus_tree.cpp`, `BplusTreeHandler::create_new_tree` -/
def createNewTree (key : K) (rid : RID) : TreeM K RC := do
  if (← get).rootPage ≠ bpInvalidPageNum then
    return .internal
  let (rc, frame) ← allocatePage
  if rc ≠ .success then
    return rc
  setPage frame (.initEmpty .leaf)
  modifyLeaf frame fun n => n.insert 0 key rid
  modify fun h => { h with rootPage := frame }
  markDirty frame
  let _ ← unpinPage frame
  updateRootPageNum

/-- Split one full node into two.
Source: `bplus_tree.cpp`, `BplusTreeHandler::split` -/
def split (kind : NodeKind) (frame : Int) : TreeM K (RC × Int) := do
  let (rc, newFrame) ← allocatePage
  if rc ≠ .success then
    return (rc, newFrame)
  setPage newFrame (.initEmpty kind)
  setParentPageNum newFrame (← page frame).parentPageNum
  let _ ← moveHalfTo kind frame newFrame
  markDirty frame
  markDirty newFrame
  return (.success, newFrame)

/-- Make a new root over the two halves of the old one, the first branch of
`insert_entry_into_parent`. -/
def insertNewRoot [Inhabited K] (frame newFrame : Int) (key : K) : TreeM K RC := do
  let (rc, rootFrame) ← allocatePage
  if rc ≠ .success then
    return rc
  setPage rootFrame (.initEmpty .internal)
  modifyInternal rootFrame fun n => n.createNewRoot frame key newFrame
  setParentPageNum frame rootFrame
  setParentPageNum newFrame rootFrame
  markDirty frame
  markDirty newFrame
  let _ ← unpinPage frame
  let _ ← unpinPage newFrame
  modify fun h => { h with rootPage := rootFrame }
  let _ ← updateRootPageNum
  markDirty rootFrame
  let _ ← unpinPage rootFrame
  return .success

/-- Enter the right half `newFrame` of a split node into the parent of the left half `frame`,
splitting the parent in turn when it is full.
Source: `bplus_tree.cpp`, `BplusTreeHandler::insert_entry_into_parent` -/
def insertEntryIntoParent [Inhabited K] (comparator : K → K → Int) :
    ℕ → Int → Int → K → TreeM K RC
  | 0, _, _, _ => TreeM.fail
  | fuel + 1, frame, newFrame, key => do
    let parentPageNum := (← page frame).parentPageNum
    if parentPageNum = bpInvalidPageNum then
      insertNewRoot frame newFrame key
    else
      let rc ← getThisPage parentPageNum
      if rc ≠ .success then
        return rc
      if (← internalNode parentPageNum).items.length < maxSize (← get) .internal then
        -- the parent has room
        modifyInternal parentPageNum fun n => n.insert comparator key newFrame
        setParentPageNum newFrame parentPageNum
        markDirty frame
        markDirty newFrame
        markDirty parentPageNum
        let _ ← unpinPage frame
        let _ ← unpinPage newFrame
        let _ ← unpinPage parentPageNum
        return rc
      else
        let (rc, newParentFrame) ← split .internal parentPageNum
        if rc ≠ .success then
          let _ ← unpinPage frame
          let _ ← unpinPage newFrame
          let _ ← unpinPage parentPageNum
          return rc
        else
          -- into the left or the right half, by the first key of the right one
          if comparator key (← keyAt newParentFrame 0) > 0 then
            modifyInternal newParentFrame fun n => n.insert comparator key newFrame
            setParentPageNum newFrame newParentFrame
          else
            modifyInternal parentPageNum fun n => n.insert comparator key newFrame
            setParentPageNum newFrame parentPageNum
          let _ ← unpinPage frame
          let _ ← unpinPage newFrame
          insertEntryIntoParent comparator fuel parentPageNum newParentFrame
            (← keyAt newParentFrame 0)

/-- Insert into the pinned leaf `frame`, splitting it when it is full.
Source: `bplus_tree.cpp`, `BplusTreeHandler::insert_entry_into_leaf_node` -/
def insertEntryIntoLeafNode [Inhabited K] (comparator : K → K → Int) (fuel : ℕ) (frame : Int)
    (key : K) (rid : RID) : TreeM K RC := do
  let leaf ← leafNode frame
  let (insertPosition, exists') := leaf.lookup comparator key
  if exists' then
    return .recordDuplicateKey
  if leaf.items.length < maxSize (← get) .leaf then
    modifyLeaf frame fun n => n.insert insertPosition key rid
    markDirty frame
    let _ ← unpinPage frame
    return .success
  let (rc, newFrame) ← split .leaf frame
  if rc ≠ .success then
    return rc
  let leaf ← leafNode frame
  modifyLeaf newFrame fun n => { n with prevBrother := frame }
  modifyLeaf newFrame fun n => { n with nextBrother := leaf.nextBrother }
  modifyLeaf newFrame fun n => { n with parent := leaf.parent }
  modifyLeaf frame fun n => { n with nextBrother := newFrame }
  let nextPageNum := (← leafNode newFrame).nextBrother
  if nextPageNum ≠ bpInvalidPageNum then
    let rc ← getThisPage nextPageNum
    if rc ≠ .success then
      return rc
    -- the frame of the next leaf is not marked dirty here
    modifyLeaf nextPageNum fun n => { n with prevBrother := newFrame }
    let _ ← unpinPage nextPageNum
  let leaf ← leafNode frame
  if insertPosition < leaf.items.length then
    modifyLeaf frame fun n => n.insert insertPosition key rid
  else
    modifyLeaf newFrame fun n => n.insert (insertPosition - leaf.items.length) key rid
  insertEntryIntoParent comparator fuel frame newFrame (← keyAt newFrame 0)

/-- Insert a key made of an attribute value and a record identifier.
Source: `bplus_tree.cpp`, `BplusTreeHandler::insert_entry` -/
def insertEntry [Inhabited K] (comparator : K → K → Int) (fuel : ℕ) (key : K) (rid : RID) :
    TreeM K RC := do
  if ← isEmpty then
    createNewTree key rid
  else
    let (rc, frame) ← findLeaf comparator fuel key
    if rc ≠ .success then
      return rc
    let rc ← insertEntryIntoLeafNode comparator fuel frame key rid
    if rc ≠ .success then
      let _ ← unpinPage frame
      return rc
    return .success

/-! ## Deleting -/

/-- Replace a root that has become superfluous.
Source: `bplus_tree.cpp`, `BplusTreeHandler::adjust_root` -/
def adjustRoot (rootFrame : Int) : TreeM K RC := do
  let root ← page rootFrame
  if root.isLeaf ∧ root.size > 0 then
    markDirty rootFrame
    let _ ← unpinPage rootFrame
    return .success
  if root.isLeaf then
    -- an empty leaf
    modify fun h => { h with rootPage := bpInvalidPageNum }
  else
    -- an internal node with one child
    let childPageNum ← valueAt (← internalNode rootFrame) 0
    let rc ← getThisPage childPageNum
    if rc ≠ .success then
      return rc
    -- the frame of the child is not marked dirty here
    setParentPageNum childPageNum bpInvalidPageNum
    let _ ← unpinPage childPageNum
    modify fun h => { h with rootPage := childPageNum }
  let _ ← updateRootPageNum
  let _ ← unpinPage rootFrame
  let _ ← disposePage rootFrame
  return .success

/-- Move one item from the neighbour to the node.
Source: `bplus_tree.cpp`, `BplusTreeHandler::redistribute` -/
def redistribute (kind : NodeKind) (neighborFrame frame parentFrame : Int) (index : ℕ) :
    TreeM K RC := do
  if index = 0 then
    -- the neighbour is at the right
    let _ ← moveFirstToEnd kind neighborFrame frame
    let key ← keyAt neighborFrame 0
    TreeM.assert (index + 1 < (← internalNode parentFrame).items.length)
    modifyInternal parentFrame fun n => n.setKeyAt (index + 1) key
  else
    let _ ← moveLastToFront kind neighborFrame frame
    let key ← keyAt frame 0
    TreeM.assert (index < (← internalNode parentFrame).items.length)
    modifyInternal parentFrame fun n => n.setKeyAt index key
  markDirty neighborFrame
  markDirty frame
  markDirty parentFrame
  let _ ← unpinPage parentFrame
  let _ ← unpinPage neighborFrame
  let _ ← unpinPage frame
  return .success

/-- Merge the node and its neighbour, always the right one into the left one, and go on with the
parent. `coalesceOrRedistribute` is the recursive call the source ends with.
Source: `bplus_tree.cpp`, `BplusTreeHandler::coalesce` -/
def coalesce (coalesceOrRedistribute : Int → TreeM K RC) (kind : NodeKind)
    (neighborFrame frame parentFrame : Int) (index : ℕ) : TreeM K RC := do
  let (leftFrame, rightFrame, index) :=
    if index = 0 then (frame, neighborFrame, index + 1) else (neighborFrame, frame, index)
  TreeM.assert (index < (← internalNode parentFrame).items.length)
  modifyInternal parentFrame fun n => n.remove index
  let rc ← moveTo kind rightFrame leftFrame
  if rc ≠ .success then
    return rc
  if (← page leftFrame).isLeaf then
    let right ← leafNode rightFrame
    modifyLeaf leftFrame fun n => { n with nextBrother := right.nextBrother }
    let nextRightPageNum := right.nextBrother
    if nextRightPageNum ≠ bpInvalidPageNum then
      let rc ← getThisPage nextRightPageNum
      if rc ≠ .success then
        let _ ← unpinPage frame
        let _ ← unpinPage neighborFrame
        let _ ← unpinPage parentFrame
        return rc
      modifyLeaf nextRightPageNum fun n => { n with prevBrother := leftFrame }
      let _ ← unpinPage nextRightPageNum
  let _ ← unpinPage leftFrame
  let _ ← unpinPage rightFrame
  let _ ← disposePage rightFrame
  coalesceOrRedistribute parentFrame

/-- Refill the pinned node `frame` if it holds too few items.
Source: `bplus_tree.cpp`, `BplusTreeHandler::coalesce_or_redistribute` -/
def coalesceOrRedistribute (comparator : K → K → Int) : ℕ → NodeKind → Int → TreeM K RC
  | 0, _, _ => TreeM.fail
  | fuel + 1, kind, frame => do
    let n ← page frame
    if n.size ≥ minSize (← get) kind then
      let _ ← unpinPage frame
      return .success
    let parentPageNum := n.parentPageNum
    if parentPageNum = bpInvalidPageNum then
      -- the root
      if n.size > 1 then
        let _ ← unpinPage frame
      else
        let _ ← adjustRoot frame
      return .success
    let rc ← getThisPage parentPageNum
    if rc ≠ .success then
      let _ ← unpinPage frame
      return rc
    let parent ← internalNode parentPageNum
    let (index, _) := parent.lookup comparator (← keyAt frame (n.size - 1))
    -- the source only logs a child at `index` that is not `frame`
    let _ ← valueAt parent index
    let neighborPageNum ← if index = 0 then valueAt parent 1 else valueAt parent (index - 1)
    let rc ← getThisPage neighborPageNum
    if rc ≠ .success then
      let _ ← unpinPage frame
      let _ ← unpinPage parentPageNum
      return rc
    let neighbor ← page neighborPageNum
    if n.size + neighbor.size > maxSize (← get) kind then
      redistribute kind neighborPageNum frame parentPageNum index
    else
      coalesce (coalesceOrRedistribute comparator fuel .internal) kind neighborPageNum frame
        parentPageNum index

/-- Delete from the pinned leaf.
Source: `bplus_tree.cpp`, `BplusTreeHandler::delete_entry_internal` -/
def deleteEntryInternal (comparator : K → K → Int) (fuel : ℕ) (leafFrame : Int) (key : K) :
    TreeM K RC := do
  let leaf ← leafNode leafFrame
  let (index, found) := leaf.lookup comparator key
  if found then
    TreeM.assert (index < leaf.items.length)
    modifyLeaf leafFrame fun n => n.remove index
    markDirty leafFrame
    if (← page leafFrame).size ≥ minSize (← get) .leaf then
      let _ ← unpinPage leafFrame
      return .success
    coalesceOrRedistribute comparator fuel .leaf leafFrame
  else
    let _ ← unpinPage leafFrame
    return .recordRecordNotExist

/-- Delete a key made of an attribute value and a record identifier.
Source: `bplus_tree.cpp`, `BplusTreeHandler::delete_entry` -/
def deleteEntry (comparator : K → K → Int) (fuel : ℕ) (key : K) : TreeM K RC := do
  let (rc, leafFrame) ← findLeaf comparator fuel key
  if rc ≠ .success then
    return rc
  deleteEntryInternal comparator fuel leafFrame key

end Miniob.Storage.Index
