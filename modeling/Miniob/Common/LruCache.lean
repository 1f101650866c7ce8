import Miniob.Lib.LinkedList
import Miniob.Lib.Recency

/-!
# Least recently used caches

The nodes of a cache are in a doubly linked list, the one used last in front, and in a hash set by
their keys. Three routines change the pointers: `lru_touch`, `lru_push` and `lru_remove`.

* `LruCache`: the nodes in memory by their addresses, the pointers and the hash set. An access to a
  node that has been deleted is `none`.
* `get`, `put`, `remove` and the loops of `foreach` and `foreach_reverse`.
* `lruTouch_eq`, `lruPush_eq`, `lruRemove_eq`: the routines succeed on nodes that are linked, and
  change the pointers as `Links.moveToFront`, `Links.pushFront` and `Links.unlink` do.
-/

namespace Miniob.Common

open Miniob.Lib

variable {K V : Type}

/-- The nodes hold entries. Source: `lru_cache.h`, `class LruCache` -/
structure LruCache (K V : Type) where
  /-- `key_` and `value_` of the nodes in memory. -/
  nodes : ℕ → Option (Entry K V)
  /-- `prev_` and `next_` of the nodes, `lru_front_` and `lru_tail_`. -/
  links : Links ℕ
  /-- `searcher_` -/
  searcher : List ℕ

/-- Where new nodes are made: not where another one is. The first argument counts the operations. -/
structure NodeAllocator where
  /-- The address of a new node. -/
  new : ℕ → List ℕ → ℕ
  new_notMem : ∀ i live, new i live ∉ live

theorem le_foldr_max {a : ℕ} {l : List ℕ} (h : a ∈ l) : a ≤ l.foldr max 0 := by
  induction l with
  | nil => exact (List.not_mem_nil h).elim
  | cons b l ih =>
    rw [List.foldr_cons]
    obtain rfl | h := List.mem_cons.mp h
    · exact Nat.le_max_left _ _
    · exact Nat.le_trans (ih h) (Nat.le_max_right _ _)

/-- Behind all nodes. -/
def NodeAllocator.behind : NodeAllocator :=
  ⟨fun _ live => live.foldr max 0 + 1, fun _ _ h => Nat.not_succ_le_self _ (le_foldr_max h)⟩

namespace LruCache

/-- A new cache. -/
def empty : LruCache K V := ⟨fun _ => none, .empty, []⟩

/-! ## Pointers -/

section pointers

variable (c : LruCache K V)

/-- `node->prev_ = prev` -/
def setPrev (node : ℕ) (prev : Option ℕ) : Option (LruCache K V) := do
  let _ ← c.nodes node
  return { c with links := c.links.setPrev node prev }

/-- `node->next_ = next` -/
def setNext (node : ℕ) (next : Option ℕ) : Option (LruCache K V) := do
  let _ ← c.nodes node
  return { c with links := c.links.setNext node next }

/-- The same, unless the pointer to the node is null. -/
def setPrevOf (node prev : Option ℕ) : Option (LruCache K V) :=
  match node with
  | some a => c.setPrev a prev
  | none => some c

/-- The same, unless the pointer to the node is null. -/
def setNextOf (node next : Option ℕ) : Option (LruCache K V) :=
  match node with
  | some a => c.setNext a next
  | none => some c

/-- `lru_front_ = front` -/
def setFront (front : Option ℕ) : LruCache K V :=
  { c with links := { c.links with front := front } }

/-- `lru_tail_ = tail` -/
def setTail (tail : Option ℕ) : LruCache K V := { c with links := { c.links with tail := tail } }

/-- Source: `lru_cache.h`, `LruCache::lru_touch` -/
def lruTouch (node : ℕ) : Option (LruCache K V) := do
  let _ ← c.nodes node
  if c.links.prev node = none then return c
  else
    let c₁ ← c.setNextOf (c.links.prev node) (c.links.next node)
    let c₂ ← if c₁.links.next node = none then some (c₁.setTail (c₁.links.prev node))
      else c₁.setPrevOf (c₁.links.next node) (c₁.links.prev node)
    let c₃ ← c₂.setPrev node none
    let c₄ ← c₃.setNext node c₃.links.front
    let c₅ ← c₄.setPrevOf c₄.links.front (some node)
    return c₅.setFront (some node)

variable [DecidableEq K]

/-- `searcher_.find`. The hash set compares the keys of its nodes. -/
def find (key : K) : Option ℕ := c.searcher.find? fun a => (c.nodes a).any fun e => e.key = key

/-- `searcher_.insert`. A node with the same key stays. -/
def searcherInsert (node : ℕ) : Option (LruCache K V) := do
  let e ← c.nodes node
  if (c.find e.key).isSome then return c else return { c with searcher := node :: c.searcher }

/-- `searcher_.erase`, of the node with the same key. -/
def searcherErase (node : ℕ) : Option (LruCache K V) := do
  let e ← c.nodes node
  match c.find e.key with
  | some a => return { c with searcher := c.searcher.erase a }
  | none => return c

/-- Source: `lru_cache.h`, `LruCache::lru_push` -/
def lruPush (node : ℕ) : Option (LruCache K V) := do
  let c₁ := if c.links.tail = none then c.setTail (some node) else c
  let c₂ ← c₁.setPrev node none
  let c₃ ← c₂.setNext node c₂.links.front
  let c₄ ← c₃.setPrevOf c₃.links.front (some node)
  (c₄.setFront (some node)).searcherInsert node

/-- Source: `lru_cache.h`, `LruCache::lru_remove` -/
def lruRemove (node : ℕ) : Option (LruCache K V) := do
  let _ ← c.nodes node
  let c₁ ← c.setNextOf (c.links.prev node) (c.links.next node)
  let c₂ ← c₁.setPrevOf (c₁.links.next node) (c₁.links.prev node)
  let c₃ := if c₂.links.front = some node then c₂.setFront (c₂.links.next node) else c₂
  let c₄ := if c₃.links.tail = some node then c₃.setTail (c₃.links.prev node) else c₃
  let c₅ ← c₄.searcherErase node
  return { c₅ with nodes := Function.update c₅.nodes node none }

/-! ## Operations -/

/-- The value of the key, if it has one. Source: `lru_cache.h`, `LruCache::get` -/
def get (key : K) : Option (Option V × LruCache K V) :=
  match c.find key with
  | none => some (none, c)
  | some node => do
    let c' ← c.lruTouch node
    let e ← c'.nodes node
    return (some e.value, c')

/-- A new node is made at the given address. Source: `lru_cache.h`, `LruCache::put` -/
def put (address : ℕ) (key : K) (value : V) : Option (LruCache K V) :=
  match c.find key with
  | some node => do
    let e ← c.nodes node
    lruTouch { c with nodes := Function.update c.nodes node (some { e with value := value }) } node
  | none =>
    lruPush { c with
      nodes := Function.update c.nodes address (some ⟨key, value⟩)
      links := (c.links.setPrev address none).setNext address none } address

/-- Source: `lru_cache.h`, `LruCache::remove` -/
def remove (key : K) : Option (LruCache K V) :=
  match c.find key with
  | some node => c.lruRemove node
  | none => some c

/-- The loop over at most `n` nodes. The function changes a state and says whether to go on. -/
def foreachLoop {S : Type} (pointer : ℕ → Option ℕ) (func : S → K → V → S × Bool) :
    ℕ → Option ℕ → S → Option S
  | _, none, s => some s
  | 0, some _, _ => none
  | n + 1, some node, s => do
    let e ← c.nodes node
    let (s', ret) := func s e.key e.value
    if ret then foreachLoop pointer func n (pointer node) s' else return s'

/-- Source: `lru_cache.h`, `LruCache::foreach` -/
def foreach {S : Type} (func : S → K → V → S × Bool) : S → Option S :=
  c.foreachLoop c.links.next func c.searcher.length c.links.front

/-- Source: `lru_cache.h`, `LruCache::foreach_reverse` -/
def foreachReverse {S : Type} (func : S → K → V → S × Bool) : S → Option S :=
  c.foreachLoop c.links.prev func c.searcher.length c.links.tail

/-- An operation, with the address of a new node. -/
def step (address : ℕ) : CacheOp K V → Option (LruCache K V)
  | .get key => (c.get key).map (·.2)
  | .put key value => c.put address key value
  | .remove key => c.remove key

/-- Operations one after the other. -/
def run (alloc : NodeAllocator) : ℕ → LruCache K V → List (CacheOp K V) → Option (LruCache K V)
  | _, c, [] => some c
  | i, c, op :: ops => do
    let c' ← c.step (alloc.new i c.searcher) op
    run alloc (i + 1) c' ops

end pointers

/-! ## Changes of the pointers -/

section changes

variable {nodes : ℕ → Option (Entry K V)} {s : Links ℕ} {searcher : List ℕ} {a : ℕ}
  {node pointer : Option ℕ} {l l₁ l₂ : List ℕ}

theorem setPrevOf_eq (h : ∀ a ∈ node, (nodes a).isSome) :
    setPrevOf ⟨nodes, s, searcher⟩ node pointer =
      some ⟨nodes, s.setPrevOf node pointer, searcher⟩ := by
  cases node with
  | none => rfl
  | some a =>
    obtain ⟨e, he⟩ := Option.isSome_iff_exists.mp (h a rfl)
    dsimp only [setPrevOf, setPrev]
    rw [he]
    rfl

theorem setNextOf_eq (h : ∀ a ∈ node, (nodes a).isSome) :
    setNextOf ⟨nodes, s, searcher⟩ node pointer =
      some ⟨nodes, s.setNextOf node pointer, searcher⟩ := by
  cases node with
  | none => rfl
  | some a =>
    obtain ⟨e, he⟩ := Option.isSome_iff_exists.mp (h a rfl)
    dsimp only [setNextOf, setNext]
    rw [he]
    rfl

theorem setPrev_eq (h : (nodes a).isSome) :
    setPrev ⟨nodes, s, searcher⟩ a pointer = some ⟨nodes, s.setPrev a pointer, searcher⟩ := by
  have halive : ∀ b ∈ some a, (nodes b).isSome := fun b hb => Option.some.inj hb ▸ h
  exact setPrevOf_eq halive

theorem setNext_eq (h : (nodes a).isSome) :
    setNext ⟨nodes, s, searcher⟩ a pointer = some ⟨nodes, s.setNext a pointer, searcher⟩ := by
  have halive : ∀ b ∈ some a, (nodes b).isSome := fun b hb => Option.some.inj hb ▸ h
  exact setNextOf_eq halive

/-- The first node. -/
theorem front_isSome (hlink : s.Linked l) (h : ∀ a ∈ l, (nodes a).isSome) :
    ∀ b ∈ s.front, (nodes b).isSome := by
  intro b hb
  rw [hlink.front] at hb
  exact h b (List.mem_of_mem_head? hb)

/-- The nodes next to a node of the list. -/
theorem neighbours_isSome (hlink : s.Linked (l₁ ++ a :: l₂))
    (h : ∀ b ∈ l₁ ++ a :: l₂, (nodes b).isSome) :
    (∀ b ∈ s.prev a, (nodes b).isSome) ∧ ∀ b ∈ s.next a, (nodes b).isSome := by
  obtain ⟨hprev, hnext⟩ := hlink.pointers
  rw [hprev, hnext]
  constructor
  · exact fun b hb => h b (List.mem_append_left _ (List.mem_of_getLast? hb))
  · exact fun b hb => h b (List.mem_append_right _ (.tail _ (List.mem_of_mem_head? hb)))

/-- **What `lru_touch` does** with a node of the list. -/
theorem lruTouch_eq (hlink : s.Linked (l₁ ++ a :: l₂))
    (h : ∀ b ∈ l₁ ++ a :: l₂, (nodes b).isSome) :
    lruTouch ⟨nodes, s, searcher⟩ a = some ⟨nodes, s.moveToFront a, searcher⟩ := by
  obtain ⟨hprevAlive, hnextAlive⟩ := neighbours_isSome hlink h
  have hfrontAlive : ∀ b ∈ s.front, (nodes b).isSome := front_isSome hlink h
  have hnode : (nodes a).isSome := h a (List.mem_append_right _ List.mem_cons_self)
  have hnext₁ : (s.setNextOf (s.prev a) (s.next a)).next a = s.next a :=
    Links.setNextOf_next_of_ne (hlink.pointers.1 ▸ hlink.neighbours_ne.1)
  obtain ⟨e, he⟩ := Option.isSome_iff_exists.mp hnode
  have hprev₁ : (s.setNextOf (s.prev a) (s.next a)).prev a = s.prev a := by
    rw [Links.setNextOf_prev]
  unfold lruTouch Links.moveToFront
  dsimp only [Option.bind_eq_bind]
  rw [he, Option.bind_some]
  by_cases hfront : s.prev a = none
  · rw [if_pos hfront, if_pos hfront]
    rfl
  rw [if_neg hfront, if_neg hfront, setNextOf_eq hprevAlive, Option.bind_some]
  dsimp only
  rw [hnext₁, hprev₁]
  by_cases hnone : s.next a = none
  · rw [if_pos hnone, if_pos hnone, Option.bind_some, setTail, setPrev_eq hnode, Option.bind_some,
      setNext_eq hnode, Option.bind_some,
      setPrevOf_eq (by simpa [Links.setNext, Links.setPrev] using hfrontAlive)]
    rfl
  · rw [if_neg hnone, if_neg hnone, setPrevOf_eq hnextAlive, Option.bind_some, setPrev_eq hnode,
      Option.bind_some, setNext_eq hnode, Option.bind_some,
      setPrevOf_eq (by simpa [Links.setNext, Links.setPrev] using hfrontAlive)]
    rfl

variable [DecidableEq K]

/-- **What `lru_push` does** with a new node. -/
theorem lruPush_eq (hlink : s.Linked l) (h : ∀ a ∈ l, (nodes a).isSome) (ha : (nodes a).isSome) :
    lruPush ⟨nodes, s, searcher⟩ a =
      searcherInsert ⟨nodes, s.pushFront a, searcher⟩ a := by
  have hfrontAlive : ∀ b ∈ s.front, (nodes b).isSome := front_isSome hlink h
  unfold lruPush Links.pushFront
  dsimp only [Option.bind_eq_bind]
  split_ifs
  · rw [setTail, setPrev_eq ha, Option.bind_some, setNext_eq ha, Option.bind_some,
      setPrevOf_eq (by exact hfrontAlive)]
    rfl
  · rw [setPrev_eq ha, Option.bind_some, setNext_eq ha, Option.bind_some,
      setPrevOf_eq (by exact hfrontAlive)]
    rfl

/-- **What `lru_remove` does** with a node of the list. -/
theorem lruRemove_eq (hlink : s.Linked (l₁ ++ a :: l₂))
    (h : ∀ b ∈ l₁ ++ a :: l₂, (nodes b).isSome) :
    lruRemove ⟨nodes, s, searcher⟩ a =
      (searcherErase ⟨nodes, s.unlink a, searcher⟩ a).map fun c =>
        { c with nodes := Function.update c.nodes a none } := by
  obtain ⟨hprevAlive, hnextAlive⟩ := neighbours_isSome hlink h
  have hnode : (nodes a).isSome := h a (List.mem_append_right _ List.mem_cons_self)
  have hnext₁ : (s.setNextOf (s.prev a) (s.next a)).next a = s.next a :=
    Links.setNextOf_next_of_ne (hlink.pointers.1 ▸ hlink.neighbours_ne.1)
  obtain ⟨e, he⟩ := Option.isSome_iff_exists.mp hnode
  unfold lruRemove Links.unlink
  dsimp only [Option.bind_eq_bind]
  rw [he, Option.bind_some, setNextOf_eq hprevAlive, Option.bind_some]
  dsimp only
  rw [hnext₁, setPrevOf_eq hnextAlive, Option.bind_some]
  rw [Option.map_eq_bind]
  dsimp only [setFront, setTail]
  split_ifs <;> rfl

end changes

end LruCache

end Miniob.Common
