import Miniob.Storage.Index.BplusTree

/-!
# The range scanner of the B+ tree

`BplusTreeScanner` as programs over the tree handler. A scan is opened between two keys, either of
which may be absent; the scanner turns them into two positions (a pinned leaf and a slot) and walks
from the one to the other along `next_brother`. `end_index_ = -1` ends a scan.

* `openLeft`, `openRight`: the two positions, `none` for the early returns of `open` on a scan
  without entries.
* `openKeys`: `open` from the made keys on; `openInts`: `open` on an `INTS` attribute, where a
  bound becomes a key with the least or the greatest record identifier.
* `scanInts`: a whole scan, `open`, `next_entry` until it does not succeed, `close`.
-/

namespace Miniob.Storage.Index

variable {K A : Type}

/-- Source: `bplus_tree.h`, `class BplusTreeScanner` -/
structure BplusTreeScanner where
  /-- `inited_` -/
  inited : Bool
  /-- `left_frame_`, the pinned leaf of the next entry. -/
  leftFrame : Option Int
  /-- `right_frame_`, the pinned leaf of the last entry. -/
  rightFrame : Option Int
  /-- `iter_index_` -/
  iterIndex : Int
  /-- `end_index_`, `-1` at the end of the scan. -/
  endIndex : Int
  deriving DecidableEq, Repr

/-- A scanner that has not been opened. -/
def BplusTreeScanner.closed : BplusTreeScanner := ⟨false, none, none, -1, -1⟩

/-- The position of the first entry at or above the left key: `left_frame_` and `iter_index_`. -/
def openLeft (comparator : K → K → Int) (fuel : ℕ) :
    Option K → TreeM K (RC × Option Int × Option ℕ)
  | none => do
    let (rc, frame) ← leftMostPage fuel
    if rc ≠ .success then
      return (rc, none, none)
    return (.success, some frame, some 0)
  | some leftKey => do
    let (rc, frame) ← findLeaf comparator fuel leftKey
    if rc ≠ .success then
      return (rc, none, none)
    let leftNode ← leafNode frame
    let leftIndex := (leftNode.lookup comparator leftKey).1
    if leftIndex ≥ leftNode.items.length then
      let nextPageNum := leftNode.nextBrother
      if nextPageNum = bpInvalidPageNum then
        return (.success, some frame, none)
      let _ ← unpinPage frame
      let rc ← getThisPage nextPageNum
      if rc ≠ .success then
        return (rc, some frame, none)
      return (.success, some nextPageNum, some 0)
    return (.success, some frame, some leftIndex)

/-- The position of the last entry below the right key: `right_frame_` and `end_index_`. -/
def openRight (comparator : K → K → Int) (fuel : ℕ) :
    Option K → TreeM K (RC × Option Int × Option ℕ)
  | none => do
    let (rc, frame) ← rightMostPage fuel
    if rc ≠ .success then
      return (rc, none, none)
    return (.success, some frame, some ((← leafNode frame).items.length - 1))
  | some rightKey => do
    let (rc, frame) ← findLeaf comparator fuel rightKey
    if rc ≠ .success then
      return (rc, none, none)
    let rightNode ← leafNode frame
    let rightIndex := (rightNode.lookup comparator rightKey).1
    if rightIndex > 0 then
      return (.success, some frame, some (rightIndex - 1))
    let prevPageNum := rightNode.prevBrother
    if prevPageNum = bpInvalidPageNum then
      return (.success, some frame, none)
    let _ ← unpinPage frame
    let rc ← getThisPage prevPageNum
    if rc ≠ .success then
      return (rc, some frame, none)
    return (.success, some prevPageNum, some ((← leafNode prevPageNum).items.length - 1))

/-- `open` after the bounds have been checked and made into keys.
Source: `bplus_tree.cpp`, `BplusTreeScanner::open` -/
def openKeys (comparator : K → K → Int) (fuel : ℕ) (leftKey rightKey : Option K)
    (scanner : BplusTreeScanner) : TreeM K (RC × BplusTreeScanner) := do
  let (rc, leftFrame, leftIndex) ← openLeft comparator fuel leftKey
  let scanner := { scanner with leftFrame := leftFrame }
  if rc ≠ .success then
    return (rc, scanner)
  match leftFrame, leftIndex with
  | some left, some leftIndex => do
    let scanner := { scanner with iterIndex := leftIndex }
    let (rc, rightFrame, rightIndex) ← openRight comparator fuel rightKey
    let scanner := { scanner with rightFrame := rightFrame }
    if rc ≠ .success then
      return (rc, scanner)
    match rightFrame, rightIndex with
    | some right, some rightIndex => do
      let leftNode ← leafNode left
      -- the left position may be one entry after the right one
      if left = right ∧ leftIndex > rightIndex ∨ leftNode.prevBrother = right then
        return (.success, { scanner with endIndex := -1 })
      return (.success, { scanner with endIndex := rightIndex })
    | _, _ => return (.success, { scanner with endIndex := -1 })
  | _, _ => return (.success, scanner)

/-- The check of two bounds: the left one must be below the right one, or equal to it with both
ends included. -/
def validRange (attrComparator : A → A → Int) : Option (A × Bool) → Option (A × Bool) → Bool
  | some (left, leftInclusive), some (right, rightInclusive) =>
    let result := attrComparator left right
    !(result > 0 || result = 0 && (!leftInclusive || !rightInclusive))
  | _, _ => true

/-- The left bound as a key: after all entries with its value when it is excluded. -/
def leftKey : A × Bool → IndexKey A
  | (left, inclusive) => ⟨left, if inclusive then RID.min else RID.max⟩

/-- The right bound as a key: after all entries with its value when it is included. -/
def rightKey : A × Bool → IndexKey A
  | (right, inclusive) => ⟨right, if inclusive then RID.max else RID.min⟩

/-- `open` on an attribute whose bounds need no adjustment. A bound is a value and whether it is
included.
Source: `bplus_tree.cpp`, `BplusTreeScanner::open` -/
def openInts (attrComparator : A → A → Int) (fuel : ℕ) (left right : Option (A × Bool))
    (scanner : BplusTreeScanner) : TreeM (IndexKey A) (RC × BplusTreeScanner) := do
  if scanner.inited then
    return (.internal, scanner)
  let scanner := { scanner with inited := true }
  if !validRange attrComparator left right then
    return (.invalidArgument, scanner)
  openKeys (keyComparator attrComparator) fuel (left.map leftKey) (right.map rightKey) scanner

/-- The record identifier at the left position, and a step to the right.
Source: `bplus_tree.cpp`, `BplusTreeScanner::next_entry` -/
def nextEntry (scanner : BplusTreeScanner) : TreeM K (RC × Option RID × BplusTreeScanner) := do
  if scanner.endIndex = -1 then
    return (.recordEof, none, scanner)
  let left ← TreeM.assertSome scanner.leftFrame
  let right ← TreeM.assertSome scanner.rightFrame
  let node ← leafNode left
  TreeM.assert (0 ≤ scanner.iterIndex)
  let rid := (← TreeM.assertSome node.items[scanner.iterIndex.toNat]?).2
  if left = right ∧ scanner.iterIndex = scanner.endIndex then
    return (.success, some rid, { scanner with endIndex := -1 })
  if scanner.iterIndex < (node.items.length : Int) - 1 then
    return (.success, some rid, { scanner with iterIndex := scanner.iterIndex + 1 })
  if left ≠ right then
    let pageNum := node.nextBrother
    let _ ← unpinPage left
    if pageNum = bpInvalidPageNum then
      return (.internal, some rid, { scanner with leftFrame := none })
    let rc ← getThisPage pageNum
    if rc ≠ .success then
      return (rc, some rid, { scanner with leftFrame := none })
    return (.success, some rid, { scanner with leftFrame := some pageNum, iterIndex := 0 })
  return (.internal, some rid, scanner)

/-- Source: `bplus_tree.cpp`, `BplusTreeScanner::close` -/
def closeScanner (scanner : BplusTreeScanner) : TreeM K (RC × BplusTreeScanner) := do
  match scanner.leftFrame with
  | some frame => let _ ← unpinPage frame
  | none => pure ()
  match scanner.rightFrame with
  | some frame => let _ ← unpinPage frame
  | none => pure ()
  return (.success, { scanner with
    inited := false, leftFrame := none, rightFrame := none, endIndex := -1 })

/-- Call `next_entry` until it does not succeed: the record identifiers it gave and the code it
ended with. -/
def nextEntries : ℕ → BplusTreeScanner → TreeM K (RC × List RID × BplusTreeScanner)
  | 0, _ => TreeM.fail
  | fuel + 1, scanner => do
    let (rc, rid, scanner) ← nextEntry scanner
    if rc ≠ .success then
      return (rc, [], scanner)
    let (rc, rids, scanner) ← nextEntries fuel scanner
    return (rc, rid.toList ++ rids, scanner)

/-- A whole scan of an index on an attribute whose bounds need no adjustment. -/
def scanInts (attrComparator : A → A → Int) (fuel : ℕ) (left right : Option (A × Bool)) :
    TreeM (IndexKey A) (RC × RC × List RID) := do
  let (rc, scanner) ← openInts attrComparator fuel left right .closed
  if rc ≠ .success then
    let _ ← closeScanner scanner
    return (rc, rc, [])
  let (rcEnd, rids, scanner) ← nextEntries fuel scanner
  let _ ← closeScanner scanner
  return (rc, rcEnd, rids)

end Miniob.Storage.Index
