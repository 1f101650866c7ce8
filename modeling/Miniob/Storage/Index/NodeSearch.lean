import Mathlib.Tactic.Ring
import Miniob.Storage.Index.Lookup

/-!
# Node lookup over bytes

The handlers search a node through addresses: the item `i` is `i` times the item size behind the
first one. The definitions below are the lookups of the source over addresses. A comparison with
anything that is not an item of the node has no result.

* `BinaryIterator`, `lowerBoundIter`: the search, which ends because its range gets shorter.
* `lowerBoundIter_eq`: over the addresses of items it is `lowerBound` over the items, and compares
  with nothing else, whatever the comparator is.
* `leaf_search`, `internal_search`: where the lookups end if the comparator is an order.
* `node_lookup`: both of them.
-/

namespace Miniob.Storage.Index

open Miniob.Lib

variable {K O : Type}

/-! ## Iterators -/

/-- Source: `lower_bound.h`, `BinaryIterator` -/
structure BinaryIterator where
  /-- `item_num_`: the bytes of an item. -/
  itemNum : ℕ
  /-- `data_`: an address. -/
  data : Int

namespace BinaryIterator

/-- Source: `lower_bound.h`, `BinaryIterator::operator +=` -/
def add (iter : BinaryIterator) (n : Int) : BinaryIterator :=
  { iter with data := iter.data + iter.itemNum * n }

/-- Source: `lower_bound.h`, `operator -` of `BinaryIterator` -/
def sub (left right : BinaryIterator) : Int := (left.data - right.data) / left.itemNum

end BinaryIterator

/-- The loop. `item` is the item at an address, if there is one.
Source: `lower_bound.h`, `lower_bound` -/
def lowerBoundFrom (item : Int → Option K) (comp : K → Int) (first : BinaryIterator)
    (lastCount : ℕ) : Option (BinaryIterator × Bool) :=
  if lastCount = 0 then some (first, false)
  else
    let step := lastCount / 2
    let iter := first.add step
    match item iter.data with
    | none => none
    | some x =>
      let result := comp x
      if result = 0 then some (iter, true)
      else if result < 0 then lowerBoundFrom item comp (iter.add 1) (lastCount - (step + 1))
      else lowerBoundFrom item comp first step
  termination_by lastCount

/-- Source: `lower_bound.h`, `lower_bound` -/
def lowerBoundIter (item : Int → Option K) (comp : K → Int) (first last : BinaryIterator) :
    Option (BinaryIterator × Bool) :=
  lowerBoundFrom item comp first (last.sub first).toNat

/-! ## Lookups -/

/-- The key at an address, if an item of the node starts there. The items follow each other from
`array` on. -/
def keyAtAddress (array : Int) (itemSize : ℕ) (keys : List K) (address : Int) : Option K :=
  if array ≤ address ∧ (itemSize : Int) ∣ address - array then
    keys[((address - array) / itemSize).toNat]?
  else none

/-- Source: `bplus_tree.cpp`, `LeafIndexNodeHandler::__key_at`, `InternalIndexNodeHandler::__key_at` -/
def keyAddress (array : Int) (itemSize : ℕ) (index : Int) : Int := array + index * itemSize

/-- The index, and whether the key is found. The key of an item has `keySize` bytes, and its value
is a record identifier.
Source: `bplus_tree.cpp`, `LeafIndexNodeHandler::lookup` -/
def LeafIndexNode.lookupBytes (array : Int) (keySize : ℕ) (comparator : K → K → Int)
    (n : LeafIndexNode K) (key : K) : Option (Int × Bool) := do
  let itemSize := keySize + 8
  let keyAt := keyAtAddress array itemSize (n.items.map Prod.fst)
  let iterBegin : BinaryIterator := ⟨itemSize, keyAddress array itemSize 0⟩
  let iterEnd : BinaryIterator := ⟨itemSize, keyAddress array itemSize n.items.length⟩
  let (iter, found) ← lowerBoundIter keyAt (fun k => comparator k key) iterBegin iterEnd
  return (iter.sub iterBegin, found)

/-- The index of the child, whether the key is found, and the insert position. The value of an item
is a page number.
Source: `bplus_tree.cpp`, `InternalIndexNodeHandler::lookup` -/
def InternalIndexNode.lookupBytes (array : Int) (keySize : ℕ) (comparator : K → K → Int)
    (n : InternalIndexNode K) (key : K) : Option (Int × Bool × Int) := do
  let itemSize := keySize + 4
  let keyAt := keyAtAddress array itemSize (n.items.map Prod.fst)
  let size := n.items.length
  if size = 0 then return (0, false, 1)
  else
    let iterBegin : BinaryIterator := ⟨itemSize, keyAddress array itemSize 1⟩
    let iterEnd : BinaryIterator := ⟨itemSize, keyAddress array itemSize size⟩
    let (iter, found) ← lowerBoundIter keyAt (fun k => comparator k key) iterBegin iterEnd
    let ret := iter.sub iterBegin + 1
    if size ≤ ret then return (ret - 1, found, ret)
    else
      let k ← keyAt (keyAddress array itemSize ret)
      if comparator key k < 0 then return (ret - 1, found, ret)
      else return (ret, found, ret)

/-! ## The search over addresses -/

variable {item : Int → Option K} {first : BinaryIterator}

/-- The loop over the addresses of items is the loop over the items: every comparison is with one of
them. By induction on the rounds. -/
theorem lowerBoundFrom_eq (comp : K → Int) {base : Int} {xs : List K}
    (hitem : ∀ i : ℕ, i < xs.length → item (base + first.itemNum * i) = xs[i]?)
    (fuel from_ count : ℕ) (hdata : first.data = base + first.itemNum * from_)
    (hfuel : count ≤ fuel) (hlen : from_ + count ≤ xs.length) :
    lowerBoundFrom item comp first count =
      some (⟨first.itemNum, base + first.itemNum * (lowerBoundLoop comp xs fuel from_ count).1⟩,
        (lowerBoundLoop comp xs fuel from_ count).2) := by
  induction fuel generalizing first from_ count with
  | zero =>
    obtain rfl := Nat.le_zero.mp hfuel
    rw [lowerBoundFrom, if_pos rfl, lowerBoundLoop, ← hdata]
  | succ fuel ih =>
    rw [lowerBoundFrom, lowerBoundLoop]
    by_cases hcount : count = 0
    · rw [if_pos hcount, if_pos hcount, ← hdata]
    rw [if_neg hcount, if_neg hcount]
    dsimp only
    have haddress : (first.add (count / 2 : ℕ)).data =
        base + first.itemNum * (from_ + count / 2 : ℕ) := by
      unfold BinaryIterator.add
      dsimp only
      rw [hdata]
      push_cast
      ring
    have hin : from_ + count / 2 < xs.length := by omega
    rw [haddress, hitem _ hin, List.getElem?_eq_getElem hin]
    dsimp only
    split_ifs
    · rw [← haddress]
      rfl
    · have hnext : ((first.add (count / 2 : ℕ)).add 1).itemNum = first.itemNum := rfl
      refine hnext ▸ ih (hnext ▸ hitem) _ _ ?_ (by omega) (by omega)
      unfold BinaryIterator.add at haddress ⊢
      dsimp only at haddress ⊢
      rw [haddress]
      push_cast
      ring
    · exact ih hitem _ _ hdata (by omega) (by omega)

/-- The search over the addresses of items. -/
theorem lowerBoundIter_eq (comp : K → Int) {base : Int} {itemSize : ℕ} {xs : List K}
    (hsize : 0 < itemSize)
    (hitem : ∀ i : ℕ, i < xs.length → item (base + itemSize * i) = xs[i]?) :
    lowerBoundIter item comp ⟨itemSize, base⟩ ⟨itemSize, base + itemSize * xs.length⟩ =
      some (⟨itemSize, base + itemSize * (lowerBound comp xs).1⟩, (lowerBound comp xs).2) := by
  have hcount : (BinaryIterator.sub ⟨itemSize, base + itemSize * xs.length⟩
      ⟨itemSize, base⟩).toNat = xs.length := by
    unfold BinaryIterator.sub
    dsimp only
    rw [add_sub_cancel_left, Int.mul_ediv_cancel_left _ (by omega), Int.toNat_natCast]
  unfold lowerBoundIter
  rw [hcount]
  exact lowerBoundFrom_eq comp hitem _ 0 _ (by simp) le_rfl (by omega)

/-- The key at the address of an item. -/
theorem keyAtAddress_add (array : Int) {itemSize : ℕ} (hsize : 0 < itemSize) (keys : List K)
    (i : ℕ) : keyAtAddress array itemSize keys (array + itemSize * i) = keys[i]? := by
  unfold keyAtAddress
  rw [add_sub_cancel_left, Int.mul_ediv_cancel_left _ (by omega), Int.toNat_natCast, if_pos]
  exact ⟨by have := Int.mul_nonneg (Int.natCast_nonneg itemSize) (Int.natCast_nonneg i); omega,
    Int.dvd_mul_right _ _⟩

/-- The lookup of a leaf over addresses. -/
theorem LeafIndexNode.lookupBytes_eq (array : Int) (keySize : ℕ) (comparator : K → K → Int)
    (n : LeafIndexNode K) (key : K) :
    n.lookupBytes array keySize comparator key =
      some (((n.lookup comparator key).1 : Int), (n.lookup comparator key).2) := by
  have hkey : ∀ i : ℕ, i < (n.items.map Prod.fst).length →
      keyAtAddress array (keySize + 8) (n.items.map Prod.fst) (array + (keySize + 8 : ℕ) * i) =
        (n.items.map Prod.fst)[i]? := fun i _ => keyAtAddress_add array (by omega) _ i
  have hsearch := lowerBoundIter_eq (fun k => comparator k key) (by omega) hkey
  rw [List.length_map, lowerBound_map] at hsearch
  unfold LeafIndexNode.lookupBytes LeafIndexNode.lookup
  dsimp only [keyAddress]
  rw [Int.zero_mul, Int.add_zero, Int.mul_comm, hsearch]
  dsimp only [BinaryIterator.sub]
  simp only [Option.bind_eq_bind, Option.bind_some]
  rw [add_sub_cancel_left, Int.mul_ediv_cancel_left _ (by omega)]
  rfl

/-- The lookup of an internal node over addresses. -/
theorem InternalIndexNode.lookupBytes_eq (array : Int) (keySize : ℕ) (comparator : K → K → Int)
    (n : InternalIndexNode K) (key : K) :
    n.lookupBytes array keySize comparator key =
      some (((n.lookup comparator key).1 : Int),
        (lowerBound (fun e => comparator e.1 key) (n.items.drop 1)).2,
        ((n.lookup comparator key).2 : Int)) := by
  have hkey : ∀ i : ℕ, keyAtAddress array (keySize + 4) (n.items.map Prod.fst)
      (array + (keySize + 4 : ℕ) * i) = (n.items.map Prod.fst)[i]? :=
    fun i => keyAtAddress_add array (by omega) _ i
  unfold InternalIndexNode.lookupBytes InternalIndexNode.lookup
  dsimp only
  by_cases hzero : n.items.length = 0
  · rw [if_pos hzero, if_pos hzero, List.length_eq_zero_iff.mp hzero]
    rfl
  rw [if_neg hzero, if_neg hzero]
  have hfirst : ∀ i : ℕ, i < ((n.items.drop 1).map Prod.fst).length →
      keyAtAddress array (keySize + 4) (n.items.map Prod.fst)
          (keyAddress array (keySize + 4) 1 + (keySize + 4 : ℕ) * i) =
        ((n.items.drop 1).map Prod.fst)[i]? := by
    intro i _
    have hshift : keyAddress array (keySize + 4) 1 + (keySize + 4 : ℕ) * i =
        array + (keySize + 4 : ℕ) * ((i + 1 : ℕ) : Int) := by
      unfold keyAddress
      push_cast
      ring
    rw [hshift, hkey, List.map_drop, List.getElem?_drop, Nat.add_comm]
  have hsearch := lowerBoundIter_eq (fun k => comparator k key) (by omega) hfirst
  have hend : keyAddress array (keySize + 4) n.items.length =
      keyAddress array (keySize + 4) 1 +
        (keySize + 4 : ℕ) * ((n.items.drop 1).map Prod.fst).length := by
    unfold keyAddress
    rw [List.length_map, List.length_drop, Nat.cast_sub (by omega)]
    push_cast
    ring
  rw [← hend, lowerBound_map] at hsearch
  rw [hsearch]
  dsimp only [BinaryIterator.sub]
  simp only [Option.bind_eq_bind, Option.bind_some]
  rw [add_sub_cancel_left, Int.mul_ediv_cancel_left _ (by omega)]
  generalize lowerBound (fun e => comparator e.1 key) (n.items.drop 1) = r
  have haddress : keyAddress array (keySize + 4) (r.1 + 1) =
      array + (keySize + 4 : ℕ) * ((r.1 + 1 : ℕ) : Int) := by
    unfold keyAddress
    push_cast
    ring
  rw [haddress, hkey, List.getElem?_map]
  by_cases hret : n.items.length ≤ r.1 + 1
  · rw [if_pos (by omega), List.getElem?_eq_none hret]
    simp
  · rw [if_neg (by omega), List.getElem?_eq_getElem (by omega)]
    simp only [Option.map_some, Option.bind_some]
    split_ifs <;> simp

/-! ## Where the lookups end -/

section order

variable [LinearOrder O] {comparator : K → K → Int} {rank : K → O} {key : K}

/-- The comparator is a total order: its sign is the order of the ranks. If keys that are not the
same do not compare equal, the rank of a key is the key itself. -/
structure ComparesBy (comparator : K → K → Int) (rank : K → O) : Prop where
  neg : ∀ a b, rank a < rank b → comparator a b < 0
  zero : ∀ a b, rank a = rank b → comparator a b = 0
  pos : ∀ a b, rank b < rank a → 0 < comparator a b

/-- The least index of a leaf whose key is not below the key, and whether the key is there. -/
structure LeafPlace (rank : K → O) (n : LeafIndexNode K) (key : K) (index : ℕ) (found : Bool) :
    Prop where
  le_size : index ≤ n.items.length
  below : ∀ e ∈ n.items.take index, rank e.1 < rank key
  notBelow : ∀ e ∈ n.items.drop index, rank key ≤ rank e.1
  found_iff : found = true ↔ ∃ e ∈ n.items, rank e.1 = rank key

/-- The child of an internal node whose range holds the key, whether the key is one of the keys of
the node, and the place where it is inserted. The first key is below all others and there is none
behind the last. -/
structure ChildPlace (comparator : K → K → Int) (rank : K → O) (n : InternalIndexNode K) (key : K)
    (index : ℕ) (found : Bool) (insertPosition : ℕ) : Prop where
  lt_size : index < n.items.length
  notAbove : ∀ e ∈ n.items[index]?, 0 < index → rank e.1 ≤ rank key
  above : ∀ e ∈ n.items[index + 1]?, rank key < rank e.1
  found_iff : found = true ↔ ∃ e ∈ n.items.drop 1, rank e.1 = rank key
  position : 1 ≤ insertPosition ∧ insertPosition ≤ n.items.length
  /-- The item is inserted there, and the keys are still sorted. -/
  insert : ∀ pageNum,
    (n.insert comparator key pageNum).items = n.items.insertIdx insertPosition (key, pageNum) ∧
      ((n.insert comparator key pageNum).items.drop 1).Pairwise (fun e f => rank e.1 ≤ rank f.1) ∧
      (found = false →
        ((n.insert comparator key pageNum).items.drop 1).Pairwise fun e f => rank e.1 < rank f.1)

/-- Sorted items are cut by the search. -/
theorem ComparesBy.split {V : Type} (ho : ComparesBy comparator rank) (key : K)
    {items : List (K × V)} (hsorted : items.Pairwise fun e f => rank e.1 < rank f.1) :
    (∃ l r, items = l ++ r ∧ (∀ e ∈ l, rank e.1 < rank key) ∧ (∀ e ∈ r, rank key < rank e.1) ∧
        lowerBound (fun e => comparator e.1 key) items = (l.length, false)) ∨
      ∃ l a r, items = l ++ a :: r ∧ rank a.1 = rank key ∧ (∀ e ∈ l, rank e.1 < rank key) ∧
        (∀ e ∈ r, rank key < rank e.1) ∧
        lowerBound (fun e => comparator e.1 key) items = (l.length, true) :=
  exists_split (fun e : K × V => rank e.1) (rank key) (fun e => comparator e.1 key) items
    (fun e _ => ho.neg e.1 key) (fun e _ => ho.zero e.1 key) (fun e _ => ho.pos e.1 key) hsorted

/-- The lookup of a leaf. -/
theorem leaf_search (ho : ComparesBy comparator rank) (key : K) {n : LeafIndexNode K}
    (hsorted : n.items.Pairwise fun e f => rank e.1 < rank f.1) :
    LeafPlace rank n key (n.lookup comparator key).1 (n.lookup comparator key).2 := by
  unfold LeafIndexNode.lookup
  rcases ho.split key hsorted with ⟨l, r, hitems, hl, hr, hlb⟩ | ⟨l, a, r, hitems, ha, hl, hr, hlb⟩
  · rw [hlb]
    refine ⟨by simp [hitems], by simpa [hitems] using hl, ?_, ?_⟩
    · simpa [hitems] using fun e v he => (hr (e, v) he).le
    · refine iff_of_false Bool.false_ne_true ?_
      rintro ⟨e, he, heq⟩
      rw [hitems] at he
      rcases List.mem_append.mp he with he | he
      · exact (hl e he).ne heq
      · exact (hr e he).ne' heq
  · rw [hlb]
    refine ⟨by simp [hitems], by simpa [hitems] using hl, ?_, ?_⟩
    · rw [hitems, List.drop_left]
      exact List.forall_mem_cons.mpr ⟨ha.ge, fun e he => (hr e he).le⟩
    · exact iff_of_true rfl ⟨a, by simp [hitems], ha⟩

/-- What the lookup makes of the result of the search, by one more comparison. -/
theorem internal_lookup_cons (comparator : K → K → Int) (parent : Int) (head : K × Int)
    {tail : List (K × Int)} {key : K} {cut : ℕ} {found : Bool}
    (h : lowerBound (fun e => comparator e.1 key) tail = (cut, found)) :
    InternalIndexNode.lookup comparator ⟨parent, head :: tail⟩ key =
      match tail[cut]? with
      | none => (cut, cut + 1)
      | some e => if comparator key e.1 < 0 then (cut, cut + 1) else (cut + 1, cut + 1) := by
  unfold InternalIndexNode.lookup
  rw [if_neg (by simp)]
  cases htail : tail[cut]? with
  | none =>
    simp only [List.drop_one, List.tail_cons, h, List.getElem?_cons_succ, htail,
      Nat.add_sub_cancel]
  | some e =>
    simp only [List.drop_one, List.tail_cons, h, List.getElem?_cons_succ, htail,
      Nat.add_sub_cancel]

/-- The node after an insertion. -/
theorem internal_insert_items {parent : Int} {head : K × Int} {l r : List (K × Int)}
    (pageNum : Int)
    (h : (InternalIndexNode.lookup comparator ⟨parent, head :: (l ++ r)⟩ key).2 =
      l.length + 1) :
    (InternalIndexNode.insert comparator ⟨parent, head :: (l ++ r)⟩ key pageNum).items =
      head :: (l ++ (key, pageNum) :: r) := by
  unfold InternalIndexNode.insert
  dsimp only
  rw [h, List.insertIdx_succ_cons, insertIdx_append_length]

/-- A key that is not found goes between two keys. -/
theorem childPlace_split {parent : Int} {head : K × Int} {l r : List (K × Int)}
    (hsorted : (l ++ r).Pairwise fun e f => rank e.1 < rank f.1)
    (hl : ∀ e ∈ l, rank e.1 < rank key) (hr : ∀ e ∈ r, rank key < rank e.1)
    (hlookup : InternalIndexNode.lookup comparator ⟨parent, head :: (l ++ r)⟩ key =
      (l.length, l.length + 1)) :
    ChildPlace comparator rank ⟨parent, head :: (l ++ r)⟩ key l.length false (l.length + 1) := by
  have hinsert := fun pageNum => internal_insert_items pageNum (congrArg Prod.snd hlookup)
  have hstrict : ∀ pageNum : Int,
      (l ++ (key, pageNum) :: r).Pairwise fun e f => rank e.1 < rank f.1 := by
    intro pageNum
    rw [List.pairwise_append] at hsorted ⊢
    refine ⟨hsorted.1, List.pairwise_cons.mpr ⟨hr, hsorted.2.1⟩, fun e he => ?_⟩
    exact List.forall_mem_cons.mpr ⟨hl e he, hsorted.2.2 e he⟩
  have hlength : (head :: (l ++ r)).length = l.length + r.length + 1 := by simp
  refine ⟨?_, ?_, ?_, ?_, ⟨by omega, ?_⟩, fun pageNum => ⟨?_, ?_, fun _ => ?_⟩⟩
  · dsimp only
    omega
  · intro e he hpos
    obtain ⟨i, hi⟩ : ∃ i, l.length = i + 1 := ⟨l.length - 1, by omega⟩
    rw [hi, List.getElem?_cons_succ, List.getElem?_append_left (by omega)] at he
    exact (hl e (List.mem_of_getElem? he)).le
  · intro e he
    rw [List.getElem?_cons_succ, List.getElem?_append_right le_rfl] at he
    exact hr e (List.mem_of_getElem? he)
  · refine iff_of_false Bool.false_ne_true ?_
    rintro ⟨e, he, heq⟩
    rcases List.mem_append.mp he with he | he
    · exact (hl e he).ne heq
    · exact (hr e he).ne' heq
  · dsimp only
    omega
  · rw [hinsert, List.insertIdx_succ_cons, insertIdx_append_length]
  · rw [hinsert]
    exact (hstrict pageNum).imp fun hlt => hlt.le
  · rw [hinsert]
    exact hstrict pageNum

/-- A key that is found goes in front of the one that is equal to it. -/
theorem childPlace_found {parent : Int} {head a : K × Int} {l r : List (K × Int)}
    (hsorted : (l ++ a :: r).Pairwise fun e f => rank e.1 < rank f.1)
    (ha : rank a.1 = rank key) (hr : ∀ e ∈ r, rank key < rank e.1)
    (hlookup : InternalIndexNode.lookup comparator ⟨parent, head :: (l ++ a :: r)⟩ key =
      (l.length + 1, l.length + 1)) :
    ChildPlace comparator rank ⟨parent, head :: (l ++ a :: r)⟩ key (l.length + 1) true
      (l.length + 1) := by
  have hinsert := fun pageNum => internal_insert_items pageNum (congrArg Prod.snd hlookup)
  have hlength : (head :: (l ++ a :: r)).length = l.length + r.length + 2 := by
    simp only [List.length_cons, List.length_append]
    omega
  refine ⟨?_, ?_, ?_, ?_, ⟨by omega, ?_⟩, fun pageNum => ⟨?_, ?_, nofun⟩⟩
  · dsimp only
    omega
  · intro e he _
    rw [List.getElem?_cons_succ, List.getElem?_append_right le_rfl, Nat.sub_self,
      List.getElem?_cons_zero] at he
    obtain rfl := Option.some.inj he
    exact ha.le
  · intro e he
    rw [List.getElem?_cons_succ, List.getElem?_append_right (by omega),
      (by omega : l.length + 1 - l.length = 0 + 1), List.getElem?_cons_succ] at he
    exact hr e (List.mem_of_getElem? he)
  · exact iff_of_true rfl ⟨a, by simp, ha⟩
  · dsimp only
    omega
  · rw [hinsert, List.insertIdx_succ_cons, insertIdx_append_length]
  · rw [hinsert]
    rw [List.drop_one, List.tail_cons]
    rw [List.pairwise_append, List.pairwise_cons] at hsorted ⊢
    obtain ⟨hl, ⟨har, hrr⟩, hcross⟩ := hsorted
    have hle : ∀ f ∈ a :: r, rank key ≤ rank f.1 :=
      List.forall_mem_cons.mpr ⟨ha.ge, fun f hf => (hr f hf).le⟩
    refine ⟨hl.imp fun h => h.le, ⟨hle, ?_⟩, fun e he => List.forall_mem_cons.mpr ⟨?_, ?_⟩⟩
    · exact List.pairwise_cons.mpr ⟨fun f hf => (har f hf).le, hrr.imp fun h => h.le⟩
    · exact ha ▸ (hcross e he a List.mem_cons_self).le
    · exact fun f hf => (hcross e he f hf).le

/-- The lookup of an internal node. -/
theorem internal_search (ho : ComparesBy comparator rank) (key : K) {n : InternalIndexNode K}
    (hne : n.items ≠ []) (hsorted : (n.items.drop 1).Pairwise fun e f => rank e.1 < rank f.1) :
    ChildPlace comparator rank n key (n.lookup comparator key).1
      (lowerBound (fun e => comparator e.1 key) (n.items.drop 1)).2
      (n.lookup comparator key).2 := by
  obtain ⟨parent, items⟩ := n
  obtain ⟨head, tail, rfl⟩ := List.exists_cons_of_ne_nil hne
  rw [List.drop_one, List.tail_cons] at hsorted ⊢
  rcases ho.split key hsorted with ⟨l, r, rfl, hl, hr, hlb⟩ | ⟨l, a, r, rfl, ha, hl, hr, hlb⟩
  · have hlookup : InternalIndexNode.lookup comparator ⟨parent, head :: (l ++ r)⟩ key =
        (l.length, l.length + 1) := by
      rw [internal_lookup_cons comparator parent head hlb, List.getElem?_append_right le_rfl,
        Nat.sub_self]
      cases r with
      | nil => rfl
      | cons e r =>
        have hneg := ho.neg key e.1 (hr e List.mem_cons_self)
        rw [List.getElem?_cons_zero]
        dsimp only
        rw [if_pos hneg]
    rw [hlookup, hlb]
    exact childPlace_split hsorted hl hr hlookup
  · have hlookup : InternalIndexNode.lookup comparator ⟨parent, head :: (l ++ a :: r)⟩ key =
        (l.length + 1, l.length + 1) := by
      have hzero := ho.zero key a.1 ha.symm
      rw [internal_lookup_cons comparator parent head hlb, List.getElem?_append_right le_rfl,
        Nat.sub_self, List.getElem?_cons_zero]
      dsimp only
      rw [if_neg (by omega)]
    rw [hlookup, hlb]
    exact childPlace_found hsorted ha hr hlookup

/-- **Node lookup.** Wherever the items are and however long the keys, the lookups compare with
items only and end where they should. -/
theorem node_lookup (ho : ComparesBy comparator rank) (array : Int) (keySize : ℕ) (key : K) :
    (∀ n : LeafIndexNode K, (n.items.Pairwise fun e f => rank e.1 < rank f.1) →
      ∃ (index : ℕ) (found : Bool),
        n.lookupBytes array keySize comparator key = some ((index : Int), found) ∧
          LeafPlace rank n key index found) ∧
    ∀ n : InternalIndexNode K, n.items ≠ [] →
      ((n.items.drop 1).Pairwise fun e f => rank e.1 < rank f.1) →
      ∃ (index : ℕ) (found : Bool) (insertPosition : ℕ),
        n.lookupBytes array keySize comparator key =
            some ((index : Int), found, (insertPosition : Int)) ∧
          ChildPlace comparator rank n key index found insertPosition :=
  ⟨fun n hsorted =>
      ⟨_, _, n.lookupBytes_eq array keySize comparator key, leaf_search ho key hsorted⟩,
    fun n hne hsorted =>
      ⟨_, _, _, n.lookupBytes_eq array keySize comparator key, internal_search ho key hne hsorted⟩⟩

/-- Integers as keys: 4 belongs to the child at 3, which is not above it. -/
theorem node_lookup_int :
    ∃ (index : ℕ) (found : Bool) (insertPosition : ℕ),
      InternalIndexNode.lookupBytes 100 12 (fun a b : Int => a - b) ⟨-1, [(0, 1), (3, 2), (5, 3)]⟩ 4 =
          some ((index : Int), found, (insertPosition : Int)) ∧
        ChildPlace (fun a b : Int => a - b) id ⟨-1, [(0, 1), (3, 2), (5, 3)]⟩ 4 index found
          insertPosition := by
  have ho : ComparesBy (fun a b : Int => a - b) id :=
    ⟨fun a b h => Int.sub_neg_of_lt h, fun a b h => Int.sub_eq_zero.mpr h,
      fun a b h => Int.sub_pos_of_lt h⟩
  exact (node_lookup ho 100 12 4).2 _ (by simp) (by simp)

end order

end Miniob.Storage.Index
