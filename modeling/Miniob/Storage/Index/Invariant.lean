import Miniob.Storage.Index.Exec
import Miniob.Storage.Index.Lookup

/-!
# The invariant of an index file

`IndexInv` joins the three things that hold between two operations of the tree handler: the shape
of the tree read off the pages (`TreeInv` of `view s`), the sizes of the nodes (`SizeInv`) and the
bookkeeping of the file (`StoreInv`: the header page is up to date, the nodes are allocated pages
other than the two header pages).

During an operation one node may be pending (see `TreeInv`) and one may be short of items; both
are parameters of the invariant.
-/

namespace Miniob.Storage.Index

open Miniob.Lib
open Miniob.Storage.BufferPool (FlatPool flat)

variable {K B : Type}

/-! ## The view of a file -/

namespace IndexPage

/-- The kind of node a page holds. -/
def kind : IndexPage K → Option NodeKind
  | header _ => none
  | leaf _ => some .leaf
  | internal _ => some .internal

/-- The items of an internal node. -/
def children : IndexPage K → List (K × Int)
  | internal n => n.items
  | _ => []

/-- The items of a leaf. -/
def entries : IndexPage K → List (K × RID)
  | leaf n => n.items
  | _ => []

/-- The next leaf. -/
def next : IndexPage K → Int
  | leaf n => n.nextBrother
  | _ => bpInvalidPageNum

/-- The leaf before. -/
def prev : IndexPage K → Int
  | leaf n => n.prevBrother
  | _ => bpInvalidPageNum

/-- Set `prev_brother` of a leaf. -/
def setPrev (q : Int) : IndexPage K → IndexPage K
  | leaf n => leaf { n with prevBrother := q }
  | n => n

section setParent

variable (a : Int) (n : IndexPage K)

@[simp] theorem kind_setParent : (n.setParentPageNum a).kind = n.kind := by cases n <;> rfl

@[simp] theorem children_setParent : (n.setParentPageNum a).children = n.children := by
  cases n <;> rfl

@[simp] theorem entries_setParent : (n.setParentPageNum a).entries = n.entries := by
  cases n <;> rfl

@[simp] theorem next_setParent : (n.setParentPageNum a).next = n.next := by cases n <;> rfl

@[simp] theorem prev_setParent : (n.setParentPageNum a).prev = n.prev := by cases n <;> rfl

theorem parent_setParent (hn : n.kind ≠ none) : (n.setParentPageNum a).parentPageNum = a := by
  cases n <;> first | rfl | exact absurd rfl hn

end setParent

/-- The size of a node is the number of its items. -/
theorem size_eq (n : IndexPage K) : n.size = n.children.length + n.entries.length := by
  cases n <;> simp [size, children, entries]

/-- A page of kind leaf is a leaf. -/
theorem exists_leaf {n : IndexPage K} (h : n.kind = some .leaf) : ∃ m, n = leaf m := by
  cases n with
  | leaf m => exact ⟨m, rfl⟩
  | header _ => cases h
  | internal _ => cases h

/-- A page of kind internal is an internal node. -/
theorem exists_internal {n : IndexPage K} (h : n.kind = some .internal) : ∃ m, n = internal m := by
  cases n with
  | internal m => exact ⟨m, rfl⟩
  | header _ => cases h
  | leaf _ => cases h

end IndexPage

/-- The fields of all pages of a file. -/
def view (s : FlatPool (IndexPage K)) : View K where
  kind x := (s.page x).kind
  parent x := (s.page x).parentPageNum
  children x := (s.page x).children
  entries x := (s.page x).entries
  next x := (s.page x).next
  prev x := (s.page x).prev

/-! ## Entries -/

/-- An entry is in the tree. -/
def Holds (v : View K) (g : Ghost B) (e : K × RID) : Prop := ∃ p ∈ g.nodes, e ∈ v.entries p

/-- A new node without entries changes nothing. -/
theorem holds_insert {v w : View K} {g g' : Ghost B} {r : Int}
    (hsame : ∀ x ∈ g.nodes, w.entries x = v.entries x) (hr : w.entries r = [])
    (hnodes : g'.nodes = insert r g.nodes) (e : K × RID) : Holds w g' e ↔ Holds v g e := by
  unfold Holds
  rw [hnodes]
  constructor
  · rintro ⟨x, rfl | hx, he⟩
    · rw [hr] at he
      cases he
    · exact ⟨x, hx, hsame x hx ▸ he⟩
  · rintro ⟨x, hx, he⟩
    exact ⟨x, Set.mem_insert_of_mem _ hx, (hsame x hx).symm ▸ he⟩

/-- The same entries in every node are the same entries. -/
theorem holds_congr {v w : View K} {g : Ghost B} (hsame : ∀ x ∈ g.nodes, w.entries x = v.entries x)
    (e : K × RID) : Holds w g e ↔ Holds v g e := by
  unfold Holds
  exact exists_congr fun x => and_congr_right fun hx => by rw [hsame x hx]

/-! ## Sizes and bookkeeping -/

/-- The number of items of a node. -/
def View.size (v : View K) (p : Int) : ℕ := (v.children p).length + (v.entries p).length

/-- The most items a node of a level may hold. -/
def levelMax (header : IndexFileHeader) (level : ℕ) : ℕ :=
  maxSize header (if level = 0 then .leaf else .internal)

/-- The sizes of the nodes. The node `short`, if there is one, may be one item short. -/
structure SizeInv (header : IndexFileHeader) (v : View K) (g : Ghost B) (short : Option Int) :
    Prop where
  /-- The capacities are large enough for the halves to be usable. -/
  leaf_max : 4 ≤ header.leafMaxSize
  /-- The capacities are large enough for the halves to be usable. -/
  internal_max : 6 ≤ header.internalMaxSize
  /-- No node is overfull. -/
  le_max : ∀ p ∈ g.nodes, v.size p ≤ levelMax header (g.level p)
  /-- A node that is not the root is half full. -/
  ge_half : ∀ p ∈ g.nodes, p ≠ header.rootPage → levelMax header (g.level p) / 2 ≤
    v.size p + if short = some p then 1 else 0
  /-- A root leaf is not empty and an internal root has two children. -/
  ge_root : (if g.level header.rootPage = 0 then 1 else 2) ≤
    v.size header.rootPage + if short = some header.rootPage then 1 else 0

/-- The sizes only depend on the items of the nodes. -/
theorem SizeInv.congr {header : IndexFileHeader} {v w : View K} {g : Ghost B} {short : Option Int}
    (h : SizeInv header w g short) (hroot : header.rootPage ∈ g.nodes)
    (hvw : v.AgreesOn g.nodes w) : SizeInv header v g short := by
  have hsize : ∀ x ∈ g.nodes, v.size x = w.size x := fun x hx => by
    simp only [View.size, (hvw x hx).2.2.1, (hvw x hx).2.2.2.1]
  refine ⟨h.leaf_max, h.internal_max, fun p hp => ?_, fun p hp => ?_, ?_⟩
  · rw [hsize p hp]
    exact h.le_max p hp
  · rw [hsize p hp]
    exact h.ge_half p hp
  · rw [hsize _ hroot]
    exact h.ge_root

/-- The bookkeeping of the file. -/
structure StoreInv (header : IndexFileHeader) (s : FlatPool (IndexPage K)) (nodes : Set Int) :
    Prop where
  /-- The header page holds the header. -/
  header_page : s.page firstIndexPage = .header header
  /-- No page past the end is allocated. -/
  beyond : ∀ i, s.pageCount ≤ i → s.bitmap i = false
  /-- The file header and the index header are allocated. -/
  reserved : s.Allocated 0 ∧ s.Allocated firstIndexPage
  /-- Nodes are allocated pages after the two headers. -/
  nodes : ∀ p ∈ nodes, s.Allocated p ∧ 2 ≤ p

/-- **The invariant of an empty index.** -/
structure EmptyInv (header : IndexFileHeader) (s : FlatPool (IndexPage K)) : Prop where
  /-- There is no root page. -/
  root : header.rootPage = bpInvalidPageNum
  /-- The capacities are large enough for the halves to be usable. -/
  leaf_max : 4 ≤ header.leafMaxSize
  /-- The capacities are large enough for the halves to be usable. -/
  internal_max : 6 ≤ header.internalMaxSize
  /-- The bookkeeping. -/
  store : StoreInv header s ∅

section invariant

variable [LinearOrder B] [BoundedOrder B]

/-- **The invariant of a nonempty index.** -/
structure IndexInv (InTree : K → Prop) (pos : K → B) (header : IndexFileHeader)
    (s : FlatPool (IndexPage K)) (g : Ghost B) (pending : Option (Int × Int))
    (short : Option Int) : Prop where
  /-- The shape of the tree. -/
  tree : TreeInv InTree pos (view s) g header.rootPage pending
  /-- The sizes of the nodes. -/
  sizes : SizeInv header (view s) g short
  /-- The bookkeeping. -/
  store : StoreInv header s g.nodes

/-- **What a file represents.** The file is an index that holds the entries `C`, of a height below
`height`. -/
def Represents (InTree : K → Prop) (pos : K → B) (header : IndexFileHeader)
    (s : FlatPool (IndexPage K)) (height : ℕ) (C : Set (K × RID)) : Prop :=
  EmptyInv header s ∧ C = ∅ ∨
    ∃ g : Ghost B, IndexInv InTree pos header s g none none ∧ (∀ e, e ∈ C ↔ Holds (view s) g e) ∧
      g.level header.rootPage < height

theorem Represents.succ {InTree : K → Prop} {pos : K → B} {header : IndexFileHeader}
    {s : FlatPool (IndexPage K)} {height : ℕ} {C : Set (K × RID)}
    (h : Represents InTree pos header s height C) :
    Represents InTree pos header s (height + 1) C := by
  refine h.imp id ?_
  rintro ⟨g, hinv, hC, hlt⟩
  exact ⟨g, hinv, hC, hlt.trans (Nat.lt_succ_self _)⟩

/-- A node is a leaf or an internal node. -/
theorem IndexInv.kind_ne_none {InTree : K → Prop} {pos : K → B} {header : IndexFileHeader}
    {s : FlatPool (IndexPage K)} {g : Ghost B} {pending : Option (Int × Int)} {short : Option Int}
    (h : IndexInv InTree pos header s g pending short) {x : Int} (hx : x ∈ g.nodes) :
    (s.page x).kind ≠ none := by
  have hk : (s.page x).kind = _ := h.tree.kind_eq x hx
  simp [hk]

end invariant

variable {header : IndexFileHeader} {s : FlatPool (IndexPage K)} {nodes : Set Int} {p : Int}

/-- The page `allocate_page` takes is not a node and not a header page. -/
theorem StoreInv.freePage (h : StoreInv header s nodes) :
    (s.freePage : Int) ∉ nodes ∧ 2 ≤ (s.freePage : Int) := by
  have hfree := FlatPool.freePage_not_allocated h.beyond
  refine ⟨fun hmem => hfree (h.nodes _ hmem).1, ?_⟩
  have h0 : s.freePage ≠ 0 := fun heq => hfree (by rw [heq]; exact h.reserved.1)
  have h1 : s.freePage ≠ 1 := fun heq => hfree (by rw [heq]; exact h.reserved.2)
  omega

/-- A node is not the header page. -/
theorem StoreInv.ne_first (h : StoreInv header s nodes) (hp : p ∈ nodes) : p ≠ firstIndexPage := by
  have := (h.nodes p hp).2
  rintro rfl
  exact absurd this (by decide)

/-- Bookkeeping does not depend on the contents of the nodes. -/
theorem StoreInv.congr {s' : FlatPool (IndexPage K)} (h : StoreInv header s nodes)
    (hbitmap : s'.bitmap = s.bitmap) (hcount : s'.pageCount = s.pageCount)
    (hfirst : s'.page firstIndexPage = s.page firstIndexPage) : StoreInv header s' nodes := by
  have halloc : ∀ x, s'.Allocated x ↔ s.Allocated x := fun x => by
    simp only [FlatPool.Allocated, hbitmap]
  refine ⟨hfirst.trans h.header_page, fun i hi => ?_, ?_, fun x hx => ?_⟩
  · rw [hbitmap]
    exact h.beyond i (hcount ▸ hi)
  · exact ⟨(halloc 0).mpr h.reserved.1, (halloc _).mpr h.reserved.2⟩
  · exact ⟨(halloc x).mpr (h.nodes x hx).1, (h.nodes x hx).2⟩

/-- Writing a node keeps the bookkeeping. -/
theorem StoreInv.set (h : StoreInv header s nodes) (hp : p ∈ nodes) (n : IndexPage K) :
    StoreInv header (s.set p n) nodes :=
  h.congr rfl rfl (by simp [(h.ne_first hp).symm])

/-- The page `allocate_page` takes may become a node. -/
theorem StoreInv.allocate (h : StoreInv header s nodes) :
    StoreInv header s.allocate (insert (s.freePage : Int) nodes) := by
  obtain ⟨-, hfree⟩ := h.freePage
  refine ⟨?_, fun i hi => ?_, ?_, ?_⟩
  · rw [FlatPool.allocate_page_of_ne (by rw [firstIndexPage]; omega)]
    exact h.header_page
  · simp only [FlatPool.allocate, sup_le_iff] at hi ⊢
    rw [Function.update_of_ne (by omega)]
    exact h.beyond i hi.1
  · simp [h.reserved]
  · rintro x (rfl | hx)
    · exact ⟨by simp, hfree⟩
    · exact ⟨by simp [(h.nodes x hx).1], (h.nodes x hx).2⟩

/-- The disposed page is no longer a node. -/
theorem StoreInv.dispose {s' : FlatPool (IndexPage K)} (h : StoreInv header s nodes)
    (hp : p ∈ nodes)
    (hbitmap : s'.bitmap = (s.dispose p).bitmap) (hcount : s'.pageCount = s.pageCount)
    (hfirst : s'.page firstIndexPage = s.page firstIndexPage) :
    StoreInv header s' (nodes \ {p}) := by
  have hp₂ := (h.nodes p hp).2
  have halloc : ∀ x, s'.Allocated x ↔ s.Allocated x ∧ x ≠ p := fun x => by
    rw [← FlatPool.allocated_dispose s (by omega)]
    simp only [FlatPool.Allocated, hbitmap]
  refine ⟨hfirst.trans h.header_page, fun i hi => ?_, ?_, ?_⟩
  · rw [hbitmap]
    simp only [FlatPool.dispose, Function.update_apply]
    split
    · rfl
    · exact h.beyond i (hcount ▸ hi)
  · rw [halloc, halloc, firstIndexPage]
    exact ⟨⟨h.reserved.1, by omega⟩, h.reserved.2, by omega⟩
  · rintro x ⟨hx, hxp⟩
    exact ⟨(halloc x).mpr ⟨(h.nodes x hx).1, hxp⟩, (h.nodes x hx).2⟩

section keys

variable [LinearOrder B] [BoundedOrder B] {InTree : K → Prop} {pos : K → B} {v : View K}
  {g : Ghost B} {root P : Int} {pending : Option (Int × Int)}

/-- Every key of an internal node but the first is the lower bound of its child. -/
theorem NodeInv.key_eq (h : NodeInv InTree pos v g root pending) (hP : P ∈ g.nodes)
    {e : K × Int} (he : e ∈ (v.children P).tail) : InTree e.1 ∧ pos e.1 = g.lo e.2 := by
  rcases hc : v.children P with _ | ⟨a, cs⟩
  · simp [hc] at he
  · rw [hc, List.tail_cons] at he
    have hmem : e ∈ v.children P := by simp [hc, he]
    have hcells := h.cells P hP (h.level_ne_zero hP (List.mem_map_of_mem (f := Prod.snd) hmem))
    rw [hc, List.map_cons, cells_cons] at hcells
    have hlo := (cells_mem hcells.2.2 (List.mem_map_of_mem (f := Prod.snd) he)).1
    rcases (h.child P hP e hmem).2.2.2 with hbot | hkey
    · rw [hbot] at hlo
      exact absurd (hcells.2.1.trans_le hlo) not_lt_bot
    · exact hkey

/-- Every entry whose position lies in the interval of a leaf is in that leaf. -/
theorem TreeInv.mem_entries (h : TreeInv InTree pos v g root none) (hp : p ∈ g.nodes)
    (hleaf : g.level p = 0) {e : K × RID} (he : Holds v g e) (hlo : g.lo p ≤ pos e.1)
    (hhi : pos e.1 < g.hi p) : e ∈ v.entries p := by
  obtain ⟨x, hx, hex⟩ := he
  have hx₀ : g.level x = 0 := by
    by_contra hne
    rw [h.internal_entries x hx hne] at hex
    cases hex
  obtain ⟨-, hlo', hhi'⟩ := h.entry x hx e hex
  rwa [h.unique hp hx (hleaf.trans hx₀.symm) hlo hhi hlo' hhi']

end keys

end Miniob.Storage.Index
