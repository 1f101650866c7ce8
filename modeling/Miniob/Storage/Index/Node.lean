import Miniob.Lib.LowerBound
import Miniob.Storage.BufferPool.Calls

/-!
# Pages of a B+ tree index

The page contents of `bplus_tree.h` and the parts of the node handlers that look at one page only.

* `IndexKey A`: an attribute value followed by a record identifier, with `KeyComparator`.
* `IndexFileHeader`, `LeafIndexNode`, `InternalIndexNode`: the three kinds of page. An item array
  with its `key_num` is a list.
* `LeafIndexNode.lookup`, `InternalIndexNode.lookup`: the binary searches. The first key of an
  internal node is never compared.

Everything below `IndexKey` is generic in the key type `K`.
-/

namespace Miniob.Storage.Index

open Miniob.Lib Miniob.Storage.BufferPool

/-! ## Keys -/

/-- A key of the index: the attribute value and the record identifier after it.
Source: `bplus_tree.cpp`, `BplusTreeHandler::make_key` -/
structure IndexKey (A : Type) where
  /-- The value of the indexed attribute. -/
  attr : A
  /-- The identifier of the record. -/
  rid : RID
  deriving DecidableEq, Repr, Inhabited

/-- Order of keys: by attribute, then by record identifier.
Source: `bplus_tree.h`, `KeyComparator::operator()` -/
def keyComparator {A : Type} (attrComparator : A → A → Int) (v₁ v₂ : IndexKey A) : Int :=
  let result := attrComparator v₁.attr v₂.attr
  if result ≠ 0 then result else RID.compare v₁.rid v₂.rid

/-- The comparison of two `INTS` attributes, a difference computed in 32 bits.
Source: `comparator.cpp`, `compare_int` -/
def compareInt (v₁ v₂ : Int) : Int := wrap32 (v₁ - v₂)

/-! ## Pages -/

/-- The fields of the index header that the operations read.
Source: `bplus_tree.h`, `struct IndexFileHeader` -/
structure IndexFileHeader where
  /-- The root page, or `-1` for the empty tree. -/
  rootPage : Int
  /-- The most items an internal node holds. -/
  internalMaxSize : ℕ
  /-- The most items a leaf holds. -/
  leafMaxSize : ℕ
  deriving DecidableEq, Repr, Inhabited

/-- The items that fit in an internal page: keys, each an attribute and a record identifier, and
child pages. Source: `bplus_tree.cpp`, `calc_internal_page_capacity` -/
def calcInternalPageCapacity (attrLength : Int) : Int :=
  (bpPageDataSize - 12).tdiv (attrLength + 8 + 4)

/-- The items that fit in a leaf page: keys and record identifiers.
Source: `bplus_tree.cpp`, `calc_leaf_page_capacity` -/
def calcLeafPageCapacity (attrLength : Int) : Int :=
  (bpPageDataSize - (12 + 8)).tdiv (attrLength + 8 + 8)

/-- A leaf page. Source: `bplus_tree.h`, `struct LeafIndexNode` -/
structure LeafIndexNode (K : Type) where
  /-- The page of the parent, or `-1`. -/
  parent : Int
  /-- The leaf before this one, or `-1`. -/
  prevBrother : Int
  /-- The leaf after this one, or `-1`. -/
  nextBrother : Int
  /-- Keys and record identifiers. -/
  items : List (K × RID)
  deriving DecidableEq, Repr

/-- An internal page. Source: `bplus_tree.h`, `struct InternalIndexNode` -/
structure InternalIndexNode (K : Type) where
  /-- The page of the parent, or `-1`. -/
  parent : Int
  /-- Keys and child pages; the first key is ignored by searches. -/
  items : List (K × Int)
  deriving DecidableEq, Repr

/-- The contents of an index page. -/
inductive IndexPage (K : Type)
  /-- The first page of the file. -/
  | header (h : IndexFileHeader)
  /-- A leaf. -/
  | leaf (n : LeafIndexNode K)
  /-- An internal node. -/
  | internal (n : InternalIndexNode K)
  deriving DecidableEq, Repr

/-- A cleared page reads as an internal node (`is_leaf` is zero) without items. -/
instance {K : Type} : Inhabited (IndexPage K) := ⟨.internal ⟨0, []⟩⟩

/-- The two node handler classes the templates of the tree are used with. -/
inductive NodeKind
  /-- `LeafIndexNodeHandler` -/
  | leaf
  /-- `InternalIndexNodeHandler` -/
  | internal
  deriving DecidableEq, Repr

variable {K : Type}

/-! ## `IndexNodeHandler` -/

namespace IndexPage

/-- Source: `bplus_tree.cpp`, `IndexNodeHandler::is_leaf` -/
def isLeaf : IndexPage K → Bool
  | leaf _ => true
  | _ => false

/-- Source: `bplus_tree.cpp`, `IndexNodeHandler::size` -/
def size : IndexPage K → ℕ
  | leaf n => n.items.length
  | internal n => n.items.length
  | header _ => 0

/-- Source: `bplus_tree.cpp`, `IndexNodeHandler::parent_page_num` -/
def parentPageNum : IndexPage K → Int
  | leaf n => n.parent
  | internal n => n.parent
  | header _ => bpInvalidPageNum

/-- Source: `bplus_tree.cpp`, `IndexNodeHandler::set_parent_page_num` -/
def setParentPageNum (pageNum : Int) : IndexPage K → IndexPage K
  | leaf n => leaf { n with parent := pageNum }
  | internal n => internal { n with parent := pageNum }
  | header h => header h

@[simp] theorem setParentPageNum_setParentPageNum (a b : Int) (n : IndexPage K) :
    (n.setParentPageNum a).setParentPageNum b = n.setParentPageNum b := by
  cases n <;> rfl

/-- The key of an item. Source: `bplus_tree.cpp`, `LeafIndexNodeHandler::key_at`,
`InternalIndexNodeHandler::key_at` -/
def keyAt? (index : ℕ) : IndexPage K → Option K
  | leaf n => n.items[index]?.map Prod.fst
  | internal n => n.items[index]?.map Prod.fst
  | header _ => none

/-- An empty node. Source: `bplus_tree.cpp`, `LeafIndexNodeHandler::init_empty`,
`InternalIndexNodeHandler::init_empty` -/
def initEmpty : NodeKind → IndexPage K
  | .leaf => leaf ⟨bpInvalidPageNum, bpInvalidPageNum, bpInvalidPageNum, []⟩
  | .internal => internal ⟨bpInvalidPageNum, []⟩

end IndexPage

/-- The most items a node may hold. Source: `bplus_tree.cpp`, `LeafIndexNodeHandler::max_size`,
`InternalIndexNodeHandler::max_size` -/
def maxSize (header : IndexFileHeader) : NodeKind → ℕ
  | .leaf => header.leafMaxSize
  | .internal => header.internalMaxSize

/-- The size below which a node is refilled. Source: `bplus_tree.cpp`,
`LeafIndexNodeHandler::min_size`, `InternalIndexNodeHandler::min_size` -/
def minSize (header : IndexFileHeader) (kind : NodeKind) : ℕ :=
  maxSize header kind - maxSize header kind / 2

/-! ## `LeafIndexNodeHandler` -/

namespace LeafIndexNode

/-- The insert position of a key and whether the key is there. The search is `lower_bound` of
`lower_bound.h`.
Source: `bplus_tree.cpp`, `LeafIndexNodeHandler::lookup` -/
def lookup (comparator : K → K → Int) (n : LeafIndexNode K) (key : K) : ℕ × Bool :=
  lowerBound (fun e => comparator e.1 key) n.items

/-- Source: `bplus_tree.cpp`, `LeafIndexNodeHandler::insert` -/
def insert (n : LeafIndexNode K) (index : ℕ) (key : K) (rid : RID) : LeafIndexNode K :=
  { n with items := n.items.insertIdx index (key, rid) }

/-- Source: `bplus_tree.cpp`, `LeafIndexNodeHandler::remove(int)` -/
def remove (n : LeafIndexNode K) (index : ℕ) : LeafIndexNode K :=
  { n with items := n.items.eraseIdx index }

end LeafIndexNode

/-! ## `InternalIndexNodeHandler` -/

namespace InternalIndexNode

/-- The index of the child a key belongs to and the insert position of the key.
Source: `bplus_tree.cpp`, `InternalIndexNodeHandler::lookup` -/
def lookup (comparator : K → K → Int) (n : InternalIndexNode K) (key : K) : ℕ × ℕ :=
  if n.items.length = 0 then (0, 1)
  else
    let ret := (lowerBound (fun e => comparator e.1 key) (n.items.drop 1)).1 + 1
    match n.items[ret]? with
    | none => (ret - 1, ret)
    | some e => if comparator key e.1 < 0 then (ret - 1, ret) else (ret, ret)

/-- The two children of a new root; the first key is zeroed.
Source: `bplus_tree.cpp`, `InternalIndexNodeHandler::create_new_root` -/
def createNewRoot [Inhabited K] (n : InternalIndexNode K) (firstPageNum : Int) (key : K)
    (pageNum : Int) : InternalIndexNode K :=
  { n with items := [(default, firstPageNum), (key, pageNum)] }

/-- Source: `bplus_tree.cpp`, `InternalIndexNodeHandler::insert` -/
def insert (comparator : K → K → Int) (n : InternalIndexNode K) (key : K) (pageNum : Int) :
    InternalIndexNode K :=
  { n with items := n.items.insertIdx (n.lookup comparator key).2 (key, pageNum) }

/-- The position of a child page, `none` for the `-1` of the source.
Source: `bplus_tree.cpp`, `InternalIndexNodeHandler::value_index` -/
def valueIndex (n : InternalIndexNode K) (pageNum : Int) : Option ℕ :=
  n.items.findIdx? fun e => pageNum = e.2

/-- Source: `bplus_tree.cpp`, `InternalIndexNodeHandler::set_key_at` -/
def setKeyAt (n : InternalIndexNode K) (index : ℕ) (key : K) : InternalIndexNode K :=
  { n with items := n.items.modify index fun e => (key, e.2) }

/-- Source: `bplus_tree.cpp`, `InternalIndexNodeHandler::remove` -/
def remove (n : InternalIndexNode K) (index : ℕ) : InternalIndexNode K :=
  { n with items := n.items.eraseIdx index }

end InternalIndexNode

end Miniob.Storage.Index
