import Miniob.Common.LruCache
import Mathlib.Data.List.Nodup

/-!
# The order of a least recently used cache

* `Holds`: the pointers and the hash set of a cache are those of a list of nodes with different keys.
* `Holds.get`, `Holds.put`, `Holds.remove`: an operation succeeds and changes the entries of this list
  as `recencyStep` does.
* `Holds.foreach_eq`, `Holds.foreachReverse_eq`: the loops visit the entries of the list.
* `ordered_run`: after any operations, the pointers lead through all nodes in the order of their last
  uses.
-/

namespace Miniob.Common

open Miniob.Lib

variable {K V : Type}

namespace LruCache

/-! ## Lists of nodes -/

/-- The nodes of the cache, from the front on, with different keys. -/
structure Holds (c : LruCache K V) (cells : List (ℕ × Entry K V)) : Prop where
  linked : c.links.Linked (cells.map Prod.fst)
  nodes : ∀ e ∈ cells, c.nodes e.1 = some e.2
  searcher : c.searcher.Perm (cells.map Prod.fst)
  keys : (cells.map fun e => e.2.key).Nodup

section holds

variable {c : LruCache K V} {cells cells₁ cells₂ : List (ℕ × Entry K V)} {a : ℕ} {e : Entry K V}
  {key : K} {value : V}

theorem holds_empty : Holds (empty : LruCache K V) [] :=
  ⟨Links.linked_empty, fun _ he => (List.not_mem_nil he).elim, List.Perm.nil, List.nodup_nil⟩

theorem Holds.addresses (h : Holds c cells) : (cells.map Prod.fst).Nodup := h.linked.nodup

/-- All nodes are in memory. -/
theorem Holds.isSome (h : Holds c cells) : ∀ b ∈ cells.map Prod.fst, (c.nodes b).isSome := by
  intro b hb
  obtain ⟨e, he, rfl⟩ := List.mem_map.mp hb
  rw [h.nodes e he]
  rfl

/-- The address of a node is not that of another one. -/
theorem Holds.address_ne (h : Holds c (cells₁ ++ (a, e) :: cells₂)) :
    ∀ e' ∈ cells₁ ++ cells₂, e'.1 ≠ a := by
  intro e' he' heq
  have hnodup := (List.perm_middle.map Prod.fst).nodup_iff.mp h.addresses
  rw [List.map_cons, List.nodup_cons] at hnodup
  exact hnodup.1 (List.mem_map.mpr ⟨e', he', heq⟩)

/-- The nodes of the hash set. -/
theorem Holds.mem_searcher (h : Holds c cells) :
    a ∈ c.searcher ↔ ∃ e, (a, e) ∈ cells := by
  rw [h.searcher.mem_iff, List.mem_map]
  constructor
  · rintro ⟨⟨b, e⟩, he, rfl⟩
    exact ⟨e, he⟩
  · rintro ⟨e, he⟩
    exact ⟨(a, e), he, rfl⟩

/-- A node is moved to the front. -/
theorem Holds.touch (h : Holds c (cells₁ ++ (a, e) :: cells₂)) :
    Holds { c with links := c.links.moveToFront a } ((a, e) :: (cells₁ ++ cells₂)) := by
  have hperm : (cells₁ ++ (a, e) :: cells₂).Perm ((a, e) :: (cells₁ ++ cells₂)) :=
    List.perm_middle
  refine ⟨?_, fun e he => h.nodes e (hperm.mem_iff.mpr he), h.searcher.trans (hperm.map _),
    (hperm.map _).nodup_iff.mp h.keys⟩
  have hlink := h.linked
  rw [List.map_append, List.map_cons] at hlink
  rw [List.map_cons, List.map_append]
  exact Links.linked_moveToFront hlink

/-- The keys of the entries. -/
theorem Holds.keys_map (h : Holds c cells) :
    ((cells.map Prod.snd).map Entry.key).Nodup := by
  rw [List.map_map]
  exact h.keys

/-- The value of a node changes. -/
theorem Holds.setValue (h : Holds c (cells₁ ++ (a, e) :: cells₂)) :
    Holds { c with nodes := Function.update c.nodes a (some { e with value := value }) }
      (cells₁ ++ (a, { e with value := value }) :: cells₂) := by
  have hother := h.address_ne
  obtain ⟨hlink, hnodes, hsearcher, hkeys⟩ := h
  refine ⟨by simpa using hlink, fun e' he' => ?_, by simpa using hsearcher, by simpa using hkeys⟩
  obtain rfl | he' := List.mem_cons.mp (List.perm_middle.mem_iff.mp he')
  · exact Function.update_self ..
  · refine (Function.update_of_ne (hother e' he') _ _).trans (hnodes e' ?_)
    exact List.perm_middle.mem_iff.mpr (.tail _ he')

/-- What `lru_touch` does with a node of the cache. -/
theorem Holds.lruTouch_eq (h : Holds c (cells₁ ++ (a, e) :: cells₂)) :
    c.lruTouch a = some { c with links := c.links.moveToFront a } := by
  have hlink := h.linked
  have halive := h.isSome
  rw [List.map_append, List.map_cons] at hlink halive
  exact LruCache.lruTouch_eq hlink halive

/-! ## Loops -/

/-- A function is applied to entries until it says that this is enough. -/
def visit {S : Type} (func : S → K → V → S × Bool) : S → List (Entry K V) → S
  | s, [] => s
  | s, e :: es =>
    let (s', ret) := func s e.key e.value
    if ret then visit func s' es else s'

/-- The loop visits the nodes of a path. By induction on them. -/
theorem foreachLoop_eq {S : Type} {pointer : ℕ → Option ℕ} {func : S → K → V → S × Bool} {n : ℕ}
    {start : Option ℕ} {s : S} (hpath : Path pointer start (cells.map Prod.fst))
    (hnodes : ∀ e ∈ cells, c.nodes e.1 = some e.2) (hn : cells.length ≤ n) :
    c.foreachLoop pointer func n start s = some (visit func s (cells.map Prod.snd)) := by
  induction cells generalizing n start s with
  | nil =>
    cases hpath
    cases n <;> rfl
  | cons e cells ih =>
    obtain ⟨a, e⟩ := e
    cases hpath with
    | cons _ _ hpath =>
      obtain ⟨he, hcells⟩ := List.forall_mem_cons.mp hnodes
      cases n with
      | zero => simp at hn
      | succ n =>
        have hn' : cells.length ≤ n := Nat.succ_le_succ_iff.mp hn
        rw [foreachLoop, he, List.map_cons, visit]
        dsimp only [Option.bind_eq_bind, Option.bind_some]
        split
        · exact ih hpath hcells hn'
        · rfl

theorem Holds.length (h : Holds c cells) : c.searcher.length = cells.length := by
  rw [h.searcher.length_eq, List.length_map]

/-- From the front. -/
theorem Holds.foreach_eq {S : Type} (h : Holds c cells) (func : S → K → V → S × Bool) (s : S) :
    c.foreach func s = some (visit func s (cells.map Prod.snd)) :=
  foreachLoop_eq h.linked.path_next h.nodes (Nat.le_of_eq h.length.symm)

/-- From the end. -/
theorem Holds.foreachReverse_eq {S : Type} (h : Holds c cells) (func : S → K → V → S × Bool)
    (s : S) : c.foreachReverse func s = some (visit func s (cells.map Prod.snd).reverse) := by
  have hpath := h.linked.path_prev
  rw [← List.map_reverse] at hpath ⊢
  refine foreachLoop_eq hpath (fun e he => h.nodes e (List.mem_reverse.mp he)) ?_
  rw [List.length_reverse]
  exact (Nat.le_of_eq h.length.symm)

variable [DecidableEq K]

/-- The key of a node is found. -/
theorem Holds.find_of_mem (h : Holds c cells) (he : (a, e) ∈ cells) : c.find e.key = some a := by
  obtain ⟨b, hb⟩ : ∃ b, c.find e.key = some b := by
    refine Option.isSome_iff_exists.mp (List.find?_isSome.mpr ⟨a, h.mem_searcher.mpr ⟨e, he⟩, ?_⟩)
    rw [h.nodes _ he]
    exact decide_eq_true rfl
  obtain ⟨e', he'⟩ := h.mem_searcher.mp (List.mem_of_find?_eq_some hb)
  have hkey : e'.key = e.key := by
    have hfound := List.find?_some hb
    rw [h.nodes _ he'] at hfound
    exact of_decide_eq_true hfound
  have heq := List.inj_on_of_nodup_map h.keys he' he hkey
  rw [hb]
  exact congrArg (fun e : ℕ × Entry K V => some e.1) heq

/-- Another key is not found. -/
theorem find_eq_none (h : ∀ b ∈ c.searcher, ∀ e ∈ c.nodes b, e.key ≠ key) :
    c.find key = none := by
  refine List.find?_eq_none.mpr fun b hb hfound => ?_
  obtain ⟨e, he, hkey⟩ := (Option.any_eq_true _ _).mp hfound
  exact h b hb e he (of_decide_eq_true hkey)

/-- Another key is not found. -/
theorem Holds.find_of_ne (h : Holds c cells) (hkey : ∀ e ∈ cells, e.2.key ≠ key) :
    c.find key = none := by
  refine find_eq_none fun b hb e he => ?_
  obtain ⟨e', he'⟩ := h.mem_searcher.mp hb
  have heq : e' = e := Option.some.inj ((h.nodes _ he').symm.trans he)
  exact heq ▸ hkey _ he'

/-- The key is one of the cache, or not. -/
theorem Holds.split (h : Holds c cells) (key : K) :
    (c.find key = none ∧ ∀ e ∈ cells, e.2.key ≠ key) ∨
      ∃ cells₁ a e cells₂, cells = cells₁ ++ (a, e) :: cells₂ ∧ e.key = key ∧
        c.find key = some a := by
  by_cases hkey : ∃ e ∈ cells, e.2.key = key
  · obtain ⟨⟨a, e⟩, he, rfl⟩ := hkey
    obtain ⟨cells₁, cells₂, heq⟩ := List.append_of_mem he
    exact .inr ⟨cells₁, a, e, cells₂, heq, rfl, h.find_of_mem he⟩
  · push Not at hkey
    exact .inl ⟨h.find_of_ne hkey, hkey⟩

/-- A new node is put at the front. -/
theorem Holds.push (h : Holds c cells) (ha : a ∉ c.searcher)
    (hkey : ∀ e ∈ cells, e.2.key ≠ key) :
    ∃ c', lruPush { c with
        nodes := Function.update c.nodes a (some ⟨key, value⟩)
        links := (c.links.setPrev a none).setNext a none } a = some c' ∧
      Holds c' ((a, ⟨key, value⟩) :: cells) := by
  have hnew : a ∉ cells.map Prod.fst := fun hmem => ha (h.searcher.mem_iff.mpr hmem)
  have hne : ∀ b ∈ cells.map Prod.fst, b ≠ a := fun b hb heq => hnew (heq ▸ hb)
  have hnodes : ∀ b ∈ cells.map Prod.fst,
      Function.update c.nodes a (some ⟨key, value⟩) b = c.nodes b := fun b hb =>
    Function.update_of_ne (hne b hb) _ _
  have hlink : ((c.links.setPrev a none).setNext a none).Linked (cells.map Prod.fst) := by
    refine ⟨h.linked.nodup, h.linked.front, h.linked.tail, h.linked.chain.congr fun b hb => ?_⟩
    exact ⟨Function.update_of_ne (hne b hb) _ _, Function.update_of_ne (hne b hb) _ _⟩
  have halive : ∀ b ∈ cells.map Prod.fst,
      (Function.update c.nodes a (some ⟨key, value⟩) b).isSome := by
    intro b hb
    rw [hnodes b hb]
    exact h.isSome b hb
  have hself : Function.update c.nodes a (some ⟨key, value⟩) a = some ⟨key, value⟩ :=
    Function.update_self ..
  rw [lruPush_eq hlink halive (by rw [hself]; rfl), searcherInsert]
  dsimp only [Option.bind_eq_bind]
  rw [hself, Option.bind_some, find_eq_none]
  · refine ⟨_, rfl, Links.linked_pushFront hlink hnew, fun e he => ?_, h.searcher.cons a, ?_⟩
    · obtain rfl | he := List.mem_cons.mp he
      · exact hself
      · exact (hnodes _ (List.mem_map_of_mem he)).trans (h.nodes e he)
    · rw [List.map_cons, List.nodup_cons]
      refine ⟨fun hmem => ?_, h.keys⟩
      obtain ⟨e, he, heq⟩ := List.mem_map.mp hmem
      exact hkey e he heq
  · intro b hb e he
    have hb := h.searcher.mem_iff.mp hb
    obtain ⟨e', he', rfl⟩ := List.mem_map.mp hb
    have heq : e = e'.2 :=
      Option.some.inj (he.symm.trans ((hnodes _ hb).trans (h.nodes e' he')))
    exact heq ▸ hkey e' he'

/-- A node is deleted. -/
theorem Holds.lruRemove (h : Holds c (cells₁ ++ (a, e) :: cells₂)) :
    ∃ c', c.lruRemove a = some c' ∧ Holds c' (cells₁ ++ cells₂) := by
  have hmem : (a, e) ∈ cells₁ ++ (a, e) :: cells₂ :=
    List.mem_append_right _ List.mem_cons_self
  have hfind := h.find_of_mem hmem
  have hlink := h.linked
  have halive := h.isSome
  have hperm := h.searcher.trans (List.perm_middle.map Prod.fst)
  rw [List.map_cons] at hperm
  rw [List.map_append, List.map_cons] at hlink halive
  have herase : LruCache.searcherErase ⟨c.nodes, c.links.unlink a, c.searcher⟩ a =
      some ⟨c.nodes, c.links.unlink a, c.searcher.erase a⟩ := by
    rw [LruCache.searcherErase]
    dsimp only [Option.bind_eq_bind]
    rw [h.nodes _ hmem, Option.bind_some]
    have hfound : LruCache.find ⟨c.nodes, c.links.unlink a, c.searcher⟩ e.key = some a := hfind
    rw [hfound]
    rfl
  refine ⟨_, (LruCache.lruRemove_eq hlink halive).trans (congrArg _ herase), ?_, fun e' he' => ?_,
    ?_, ?_⟩
  · rw [List.map_append]
    exact Links.linked_unlink hlink
  · refine (Function.update_of_ne (h.address_ne e' he') _ _).trans (h.nodes e' ?_)
    exact List.perm_middle.mem_iff.mpr (.tail _ he')
  · have herased := hperm.erase a
    rw [List.erase_cons_head] at herased
    exact herased
  · have hkeys := (List.perm_middle.map fun e : ℕ × Entry K V => e.2.key).nodup_iff.mp h.keys
    exact (List.nodup_cons.mp hkeys).2

/-! ## What the operations do -/

/-- `get` of a key that is not in the cache. -/
theorem Holds.get_of_ne (h : Holds c cells) (hkey : ∀ e ∈ cells, e.2.key ≠ key) :
    c.get key = some (none, c) := by
  rw [LruCache.get, h.find_of_ne hkey]

/-- `get` of a key in the cache. -/
theorem Holds.get_of_split (h : Holds c (cells₁ ++ (a, e) :: cells₂)) :
    c.get e.key = some (some e.value, { c with links := c.links.moveToFront a }) := by
  have hmem : (a, e) ∈ cells₁ ++ (a, e) :: cells₂ := List.mem_append_right _ List.mem_cons_self
  rw [LruCache.get, h.find_of_mem hmem]
  dsimp only [Option.bind_eq_bind]
  rw [h.lruTouch_eq, Option.bind_some, h.nodes _ hmem]
  rfl

/-- **What `get` does**: the value of the key is found, and its entry comes to the front. Only the
pointers change. -/
theorem Holds.get (h : Holds c cells) (key : K) :
    ∃ links cells',
      c.get key = some (((cells.map Prod.snd).find? fun e => e.key = key).map Entry.value,
        { c with links := links }) ∧
      Holds { c with links := links } cells' ∧
      cells'.map Prod.snd = recencyStep (cells.map Prod.snd) (.get key) := by
  rw [recencyStep]
  obtain ⟨-, hkey⟩ | ⟨cells₁, a, e, cells₂, rfl, rfl, -⟩ := h.split key
  · have hnone : ((cells.map Prod.snd).find? fun e => e.key = key) = none := by
      simpa using hkey
    rw [hnone]
    exact ⟨c.links, cells, h.get_of_ne hkey, h, rfl⟩
  · have hkeys := h.keys_map
    rw [List.map_append, List.map_cons] at hkeys ⊢
    rw [find?_split hkeys]
    dsimp only
    rw [others_split hkeys]
    refine ⟨_, _, h.get_of_split, h.touch, ?_⟩
    rw [List.map_cons, List.map_append]

/-- **What `put` does**: an entry with the key and the value is at the front. -/
theorem Holds.put (h : Holds c cells) (ha : a ∉ c.searcher) (key : K) (value : V) :
    ∃ c' cells', c.put a key value = some c' ∧ Holds c' cells' ∧
      cells'.map Prod.snd = recencyStep (cells.map Prod.snd) (.put key value) := by
  rw [LruCache.put, recencyStep]
  obtain ⟨hfind, hkey⟩ | ⟨cells₁, b, e, cells₂, rfl, rfl, hfind⟩ := h.split key
  · have hothers : others (cells.map Prod.snd) key = cells.map Prod.snd :=
      others_eq_self (List.forall_mem_map.mpr hkey)
    rw [hfind, hothers]
    obtain ⟨c', hpush, hholds⟩ := h.push ha hkey
    exact ⟨c', _, hpush, hholds, rfl⟩
  · have hkeys := h.keys_map
    have hnode := h.nodes (b, e) (List.mem_append_right _ List.mem_cons_self)
    rw [List.map_append, List.map_cons] at hkeys ⊢
    rw [hfind, others_split hkeys]
    dsimp only [Option.bind_eq_bind]
    rw [hnode, Option.bind_some, h.setValue.lruTouch_eq]
    refine ⟨_, _, rfl, h.setValue.touch, ?_⟩
    rw [List.map_cons, List.map_append]

/-- **What `remove` does**: the other entries stay. -/
theorem Holds.remove (h : Holds c cells) (key : K) :
    ∃ c' cells', c.remove key = some c' ∧ Holds c' cells' ∧
      cells'.map Prod.snd = recencyStep (cells.map Prod.snd) (.remove key) := by
  rw [LruCache.remove, recencyStep]
  obtain ⟨hfind, hkey⟩ | ⟨cells₁, a, e, cells₂, rfl, rfl, hfind⟩ := h.split key
  · have hothers : others (cells.map Prod.snd) key = cells.map Prod.snd :=
      others_eq_self (List.forall_mem_map.mpr hkey)
    rw [hfind, hothers]
    exact ⟨c, cells, rfl, h, rfl⟩
  · have hkeys := h.keys_map
    rw [List.map_append, List.map_cons] at hkeys ⊢
    rw [hfind, others_split hkeys]
    obtain ⟨c', hremove, hholds⟩ := h.lruRemove
    refine ⟨c', _, hremove, hholds, ?_⟩
    rw [List.map_append]

/-- **One operation.** -/
theorem holds_step (h : Holds c cells) (ha : a ∉ c.searcher) (op : CacheOp K V) :
    ∃ c' cells', c.step a op = some c' ∧ Holds c' cells' ∧
      cells'.map Prod.snd = recencyStep (cells.map Prod.snd) op := by
  cases op with
  | get key =>
    obtain ⟨links, cells', hget, hholds⟩ := h.get key
    refine ⟨{ c with links := links }, cells', ?_, hholds⟩
    rw [step, hget, Option.map_some]
  | put key value => exact h.put ha key value
  | remove key => exact h.remove key

/-- **Any operations.** By induction on them. -/
theorem holds_run (h : Holds c cells) (alloc : NodeAllocator) (i : ℕ) (ops : List (CacheOp K V)) :
    ∃ c' cells', run alloc i c ops = some c' ∧ Holds c' cells' ∧
      cells'.map Prod.snd = ops.foldl recencyStep (cells.map Prod.snd) := by
  induction ops generalizing i c cells with
  | nil => exact ⟨c, cells, rfl, h, rfl⟩
  | cons op ops ih =>
    obtain ⟨c₁, cells₁, hstep, hholds₁, hcells₁⟩ := holds_step h (alloc.new_notMem i _) op
    obtain ⟨c₂, cells₂, hrun, hholds₂, hcells₂⟩ := ih hholds₁ (i + 1)
    refine ⟨c₂, cells₂, ?_, hholds₂, ?_⟩
    · rw [run, hstep]
      exact hrun
    · rw [hcells₂, hcells₁, List.foldl_cons]

/-! ## The list -/

/-- The nodes that the pointers lead through, after operations. -/
structure Ordered (ops : List (CacheOp K V)) (c : LruCache K V) (l : List ℕ) : Prop where
  /-- By `next_` from `lru_front_`. -/
  forward : Path c.links.next c.links.front l
  /-- The last one is `lru_tail_`. -/
  tail : c.links.tail = l.getLast?
  /-- By `prev_` from `lru_tail_`. -/
  backward : Path c.links.prev c.links.tail l.reverse
  /-- They are those of the hash set. -/
  searcher : c.searcher.Perm l
  nodup : l.Nodup
  /-- They have the latest values of the keys, in the order of the last uses. -/
  recalls : ∃ es, l.map c.nodes = es.map some ∧ Recalls ops es

/-- The list of a cache whose entries are those of the operations. -/
theorem Holds.ordered {ops : List (CacheOp K V)} (h : Holds c cells)
    (hcells : cells.map Prod.snd = recencyRun ops) : Ordered ops c (cells.map Prod.fst) := by
  refine ⟨h.linked.path_next, h.linked.tail, h.linked.path_prev, h.searcher, h.addresses, recencyRun ops, ?_,
    recalls_run ops⟩
  rw [← hcells, List.map_map, List.map_map]
  exact List.map_congr_left h.nodes

/-- **After any operations** the nodes are in the order of their last uses. -/
theorem ordered_run (alloc : NodeAllocator) (ops : List (CacheOp K V)) :
    ∃ c l, run alloc 0 empty ops = some c ∧ Ordered ops c l := by
  obtain ⟨c, cells, hrun, hholds, hcells⟩ := holds_run holds_empty alloc 0 ops
  exact ⟨c, _, hrun, hholds.ordered hcells⟩

end holds

end LruCache

end Miniob.Common
