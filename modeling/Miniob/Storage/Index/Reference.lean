import Mathlib.Data.List.Sort
import Mathlib.Data.Prod.Lex
import Mathlib.Order.WithBot
import Miniob.Storage.Index.Lookup

/-!
# What an index is for: a sorted set

The abstract side of the index. `SortedSet K` is a set of keys with their record identifiers, kept
in the order of the keys; `IndexOp.reference` says what inserting and deleting do to it and which
code they return.

* `OrdersKeys`: the comparator agrees with the order of the keys on the keys that occur. It gives
  the `KeyOrder` that the searches need, with keys placed between an added least and greatest
  point.
* `compareInt_orders`: the 32-bit difference `compare_int` is such a comparator as long as no
  difference of two keys overflows.
* `Within`: the values between two bounds.
-/

namespace Miniob.Storage.Index

/-! ## Order of keys -/

/-- Keys are ordered by attribute, then by page, then by slot. -/
instance {A : Type} [LinearOrder A] : LinearOrder (IndexKey A) :=
  LinearOrder.lift' (fun k => toLex (k.attr, toLex (k.rid.pageNum, k.rid.slotNum))) fun a b h => by
    obtain ⟨x, p, i⟩ := a
    obtain ⟨y, q, j⟩ := b
    simp only [EmbeddingLike.apply_eq_iff_eq, Prod.mk.injEq] at h
    simp [h]

/-- The order of keys, spelled out. -/
theorem IndexKey.lt_iff {A : Type} [LinearOrder A] (a b : IndexKey A) :
    a < b ↔ a.attr < b.attr ∨ a.attr = b.attr ∧ (a.rid.pageNum < b.rid.pageNum ∨
      a.rid.pageNum = b.rid.pageNum ∧ a.rid.slotNum < b.rid.slotNum) := by
  change toLex (a.attr, toLex (a.rid.pageNum, a.rid.slotNum)) <
    toLex (b.attr, toLex (b.rid.pageNum, b.rid.slotNum)) ↔ _
  rw [Prod.Lex.toLex_lt_toLex, Prod.Lex.toLex_lt_toLex]

section order

variable {K : Type} [LinearOrder K] {comparator : K → K → Int} {InTree : K → Prop}

/-- The comparator agrees with the order on the keys that may occur. -/
structure OrdersKeys (comparator : K → K → Int) (InTree : K → Prop) : Prop where
  /-- Smaller keys compare negative. -/
  neg : ∀ a b, InTree a → InTree b → a < b → comparator a b < 0
  /-- A key compares zero with itself. -/
  zero : ∀ a, InTree a → comparator a a = 0
  /-- Greater keys compare positive. -/
  pos : ∀ a b, InTree a → InTree b → b < a → 0 < comparator a b

/-- The place of a key between the ends of the key space. -/
def place (k : K) : WithBot (WithTop K) := ((k : WithTop K) : WithBot (WithTop K))

@[simp] theorem place_lt_place {a b : K} : place a < place b ↔ a < b := by
  simp [place]

theorem place_le_place {a b : K} : place a ≤ place b ↔ a ≤ b := by
  rw [← not_lt, ← not_lt, place_lt_place]

theorem place_lt_top (a : K) : place a < ⊤ := by
  rw [place, ← WithBot.coe_top, WithBot.coe_lt_coe]
  exact WithTop.coe_lt_top a

omit [LinearOrder K] in
@[simp] theorem place_inj {a b : K} : place a = place b ↔ a = b := by
  simp [place]

/-- The searches of the nodes work with such a comparator. -/
theorem OrdersKeys.keyOrder (h : OrdersKeys comparator InTree) :
    KeyOrder comparator InTree place where
  bot_lt a _ := WithBot.bot_lt_coe _
  lt_top a _ := place_lt_top a
  neg a b ha hb hab := h.neg a b ha hb (place_lt_place.mp hab)
  zero a b ha _ hab := by
    rw [place_inj] at hab
    exact hab ▸ h.zero a ha
  pos a b ha hb hab := h.pos a b ha hb (place_lt_place.mp hab)

/-- Both parts of a record identifier are numbers of pages and slots: not negative, and 32-bit. -/
def RIDInRange (rid : RID) : Prop :=
  (0 ≤ rid.pageNum ∧ rid.pageNum ≤ 2147483647) ∧ 0 ≤ rid.slotNum ∧ rid.slotNum ≤ 2147483647

instance (rid : RID) : Decidable (RIDInRange rid) :=
  inferInstanceAs (Decidable ((0 ≤ rid.pageNum ∧ rid.pageNum ≤ 2147483647) ∧
    0 ≤ rid.slotNum ∧ rid.slotNum ≤ 2147483647))

/-- Record identifiers are compared by page and then by slot. -/
theorem RID.compare_eq {a b : RID} (ha : RIDInRange a) (hb : RIDInRange b) :
    RID.compare a b = if a.pageNum ≠ b.pageNum then a.pageNum - b.pageNum
      else a.slotNum - b.slotNum := by
  obtain ⟨⟨ha₁, ha₂⟩, ha₃, ha₄⟩ := ha
  obtain ⟨⟨hb₁, hb₂⟩, hb₃, hb₄⟩ := hb
  unfold RID.compare
  rw [wrap32_eq (by omega) (by omega), wrap32_eq (by omega) (by omega)]
  simp only [ne_eq, sub_eq_zero]

/-- The keys of an `INTS` index can be compared when no difference of two of them overflows. -/
theorem compareInt_orders {InTree : IndexKey Int → Prop}
    (hdiff : ∀ a b, InTree a → InTree b → -2147483648 ≤ a.attr - b.attr ∧
      a.attr - b.attr ≤ 2147483647)
    (hrid : ∀ a, InTree a → RIDInRange a.rid) :
    OrdersKeys (keyComparator compareInt) InTree := by
  have heq : ∀ a b, InTree a → InTree b → keyComparator compareInt a b =
      if a.attr ≠ b.attr then a.attr - b.attr
      else if a.rid.pageNum ≠ b.rid.pageNum then a.rid.pageNum - b.rid.pageNum
      else a.rid.slotNum - b.rid.slotNum := by
    intro a b ha hb
    have hab := hdiff a b ha hb
    simp only [keyComparator, compareInt, wrap32_eq hab.1 hab.2, ne_eq, sub_eq_zero,
      RID.compare_eq (hrid a ha) (hrid b hb)]
  refine ⟨fun a b ha hb hab => ?_, fun a ha => ?_, fun a b ha hb hab => ?_⟩
  · rw [IndexKey.lt_iff] at hab
    rw [heq a b ha hb]
    split_ifs <;> omega
  · simp [heq a a ha ha]
  · rw [IndexKey.lt_iff] at hab
    rw [heq a b ha hb]
    split_ifs <;> omega

end order

/-! ## The reference -/

variable {K : Type} [LinearOrder K]

/-- A set of keys with their record identifiers, in the order of the keys. -/
@[ext] structure SortedSet (K : Type) [LinearOrder K] where
  /-- The entries in order. -/
  entries : List (K × RID)
  /-- Each key is below the next. -/
  sorted : entries.Pairwise fun e f => e.1 < f.1

namespace SortedSet

instance [DecidableEq K] : DecidableEq (SortedSet K) := fun C D =>
  decidable_of_iff (C.entries = D.entries) SortedSet.ext_iff.symm

/-- The empty set. -/
def empty : SortedSet K := ⟨[], List.Pairwise.nil⟩

/-- The key is in the set. -/
def Contains (C : SortedSet K) (key : K) : Prop := ∃ e ∈ C.entries, e.1 = key

instance (C : SortedSet K) (key : K) : Decidable (C.Contains key) :=
  inferInstanceAs (Decidable (∃ e ∈ C.entries, e.1 = key))

/-- Add a new key. -/
def insert (C : SortedSet K) (key : K) (rid : RID) (h : ¬ C.Contains key) : SortedSet K where
  entries := C.entries.orderedInsert (fun e f => e.1 ≤ f.1) (key, rid)
  sorted := by
    have hne : ∀ e ∈ C.entries, e.1 ≠ key := fun e he heq => h ⟨e, he, heq⟩
    have hs := C.sorted
    generalize C.entries = l at hne hs ⊢
    induction l with
    | nil => simp
    | cons e l ih =>
        rw [List.pairwise_cons] at hs
        rw [List.orderedInsert_cons]
        have hel := hne e (by simp)
        split
        next hle =>
          have hlt : key < e.1 := lt_of_le_of_ne hle hel.symm
          refine List.pairwise_cons.mpr ⟨fun f hf => ?_, List.pairwise_cons.mpr hs⟩
          rcases List.mem_cons.mp hf with rfl | hf
          · exact hlt
          · exact hlt.trans (hs.1 f hf)
        next hle =>
          refine List.pairwise_cons.mpr ⟨fun f hf => ?_,
            ih (fun f hf => hne f (by simp [hf])) hs.2⟩
          rcases (List.mem_orderedInsert _).mp hf with rfl | hf
          · exact not_le.mp hle
          · exact hs.1 f hf

/-- Remove a key. -/
def erase (C : SortedSet K) (key : K) : SortedSet K where
  entries := C.entries.filter fun e => e.1 ≠ key
  sorted := C.sorted.sublist List.filter_sublist

@[simp] theorem mem_insert {C : SortedSet K} {key : K} {rid : RID} {h : ¬ C.Contains key}
    {e : K × RID} : e ∈ (C.insert key rid h).entries ↔ e = (key, rid) ∨ e ∈ C.entries := by
  simp [insert]

@[simp] theorem mem_erase {C : SortedSet K} {key : K} {e : K × RID} :
    e ∈ (C.erase key).entries ↔ e ∈ C.entries ∧ e.1 ≠ key := by
  simp [erase]

/-- A key occurs once. -/
theorem eq_of_key_eq {C : SortedSet K} {e f : K × RID} (he : e ∈ C.entries) (hf : f ∈ C.entries)
    (hkey : e.1 = f.1) : e = f := by
  have hnodup : (C.entries.map Prod.fst).Nodup :=
    List.pairwise_map.mpr (C.sorted.imp fun hlt => hlt.ne)
  exact List.inj_on_of_nodup_map hnodup he hf hkey

end SortedSet

/-- The operations on an index. -/
inductive IndexOp (K : Type)
  /-- `insert_entry` -/
  | insertEntry (key : K) (rid : RID)
  /-- `delete_entry` -/
  | deleteEntry (key : K)
  deriving DecidableEq, Repr

/-- The key of an operation. -/
def IndexOp.key : IndexOp K → K
  | insertEntry key _ => key
  | deleteEntry key => key

/-- What an operation does to a sorted set, and the code it returns. -/
def IndexOp.reference : IndexOp K → SortedSet K → RC × SortedSet K
  | insertEntry key rid, C =>
    if h : C.Contains key then (.recordDuplicateKey, C) else (.success, C.insert key rid h)
  | deleteEntry key, C =>
    if C.Contains key then (.success, C.erase key)
    else (if C.entries = [] then .empty else .recordRecordNotExist, C)

/-- A sequence of operations on a sorted set. -/
def reference : List (IndexOp K) → SortedSet K → List RC × SortedSet K
  | [], C => ([], C)
  | op :: ops, C =>
    let (rc, C) := op.reference C
    let (rcs, C) := reference ops C
    (rc :: rcs, C)

/-- An operation adds one entry at most. -/
theorem length_reference_le (op : IndexOp K) (C : SortedSet K) :
    (op.reference C).2.entries.length ≤ C.entries.length + 1 := by
  cases op with
  | insertEntry key rid =>
      simp only [IndexOp.reference]
      split
      · exact Nat.le_succ _
      · simp [SortedSet.insert, List.orderedInsert_length]
  | deleteEntry key =>
      simp only [IndexOp.reference]
      split
      · exact (List.length_filter_le _ _).trans (Nat.le_succ _)
      · exact Nat.le_succ _

/-! ## Ranges of values -/

section ranges

variable {A : Type} [LinearOrder A]

/-- The bounds exclude every value. -/
def Excludes (left right : Option (A × Bool)) : Prop :=
  ∃ l ∈ left, ∃ r ∈ right, r.1 < l.1 ∨ l.1 = r.1 ∧ ¬ (l.2 = true ∧ r.2 = true)

/-- A value lies within the bounds. -/
def Within (left right : Option (A × Bool)) (a : A) : Prop :=
  (∀ l ∈ left, if l.2 then l.1 ≤ a else l.1 < a) ∧ ∀ r ∈ right, if r.2 then a ≤ r.1 else a < r.1

instance (left right : Option (A × Bool)) : Decidable (Excludes left right) :=
  decidable_of_iff (∃ l ∈ left.toList, ∃ r ∈ right.toList,
    r.1 < l.1 ∨ l.1 = r.1 ∧ ¬ (l.2 = true ∧ r.2 = true)) (by simp [Excludes])

instance (left right : Option (A × Bool)) (a : A) : Decidable (Within left right a) :=
  decidable_of_iff ((∀ l ∈ left.toList, if l.2 then l.1 ≤ a else l.1 < a) ∧
    ∀ r ∈ right.toList, if r.2 then a ≤ r.1 else a < r.1) (by simp [Within])

end ranges

end Miniob.Storage.Index
