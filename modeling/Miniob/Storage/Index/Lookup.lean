import Miniob.Storage.Index.Shape

/-!
# Searching in a node

`KeyOrder` is what the tree needs of its comparator: on the keys that may occur, its sign is the
order of their positions. With it, the binary searches of the nodes end where they should:

* `leaf_lookup`: at the place of the key among the sorted entries of a leaf.
* `internal_lookup`: at the child whose cell holds the key.
* `internal_insert`: a separator goes right after the child whose cell it cuts.
-/

namespace Miniob.Storage.Index

open Miniob.Lib

variable {K B : Type} [LinearOrder B] [BoundedOrder B]

/-- The comparator orders the keys of the tree by their positions, which lie strictly between the
ends of the key space. -/
structure KeyOrder (comparator : K → K → Int) (InTree : K → Prop) (pos : K → B) : Prop where
  /-- Positions are above the lower end. -/
  bot_lt : ∀ a, InTree a → ⊥ < pos a
  /-- Positions are below the upper end. -/
  lt_top : ∀ a, InTree a → pos a < ⊤
  /-- Smaller keys compare negative. -/
  neg : ∀ a b, InTree a → InTree b → pos a < pos b → comparator a b < 0
  /-- Equal keys compare zero. -/
  zero : ∀ a b, InTree a → InTree b → pos a = pos b → comparator a b = 0
  /-- Greater keys compare positive. -/
  pos : ∀ a b, InTree a → InTree b → pos b < pos a → 0 < comparator a b

variable {comparator : K → K → Int} {InTree : K → Prop} {pos : K → B} {key : K}

/-- Inserting at a cut. -/
theorem insertIdx_append_length {α : Type} (l r : List α) (a : α) :
    (l ++ r).insertIdx l.length a = l ++ a :: r := by
  induction l with
  | nil => simp
  | cons b l ih => simp [ih]

/-- The search in a leaf: either the key is new and the entries are cut at its place, or an entry
has its position. -/
theorem leaf_lookup (ho : KeyOrder comparator InTree pos) (hkey : InTree key) (n : LeafIndexNode K)
    (hin : ∀ e ∈ n.items, InTree e.1) (hsorted : n.items.Pairwise fun e f => pos e.1 < pos f.1) :
    (∃ l r, n.items = l ++ r ∧ (∀ e ∈ l, pos e.1 < pos key) ∧ (∀ e ∈ r, pos key < pos e.1) ∧
        n.lookup comparator key = (l.length, false)) ∨
      ∃ l a r, n.items = l ++ a :: r ∧ pos a.1 = pos key ∧ (∀ e ∈ l, pos e.1 < pos key) ∧
        (∀ e ∈ r, pos key < pos e.1) ∧ n.lookup comparator key = (l.length, true) :=
  exists_split (fun e : K × RID => pos e.1) (pos key) (fun e => comparator e.1 key) n.items
    (fun e he => ho.neg e.1 key (hin e he) hkey) (fun e he => ho.zero e.1 key (hin e he) hkey)
    (fun e he => ho.pos e.1 key (hin e he) hkey) hsorted

/-- The search in an internal node: the items before the child `c` are at or below the key, those
after it above. The key of the first item plays no role. -/
theorem internal_lookup (ho : KeyOrder comparator InTree pos) (hkey : InTree key) (parent c : Int)
    {l₁ l₂ : List (K × Int)} {k : K} (h₁ : ∀ e ∈ l₁.tail, InTree e.1 ∧ pos e.1 < pos key)
    (hk : l₁ ≠ [] → InTree k ∧ pos k ≤ pos key) (h₂ : ∀ e ∈ l₂, InTree e.1 ∧ pos key < pos e.1) :
    InternalIndexNode.lookup comparator ⟨parent, l₁ ++ (k, c) :: l₂⟩ key =
      (l₁.length, if l₁ ≠ [] ∧ pos k = pos key then l₁.length else l₁.length + 1) := by
  have hneg : ∀ e : K × Int, InTree e.1 → pos e.1 < pos key → comparator e.1 key < 0 :=
    fun e he => ho.neg e.1 key he hkey
  have hpos : ∀ e ∈ l₂, 0 < comparator e.1 key := fun e he =>
    ho.pos e.1 key (h₂ e he).1 hkey (h₂ e he).2
  -- the item after the cut, if there is one, is above the key
  have hend : ∀ i, i = l₁.length + 1 → (l₁ ++ (k, c) :: l₂)[i]? = none ∨
      ∃ e, (l₁ ++ (k, c) :: l₂)[i]? = some e ∧ comparator key e.1 < 0 := by
    rintro i rfl
    rw [List.getElem?_append_right (by omega)]
    have hidx : l₁.length + 1 - l₁.length = 1 := by omega
    rw [hidx, List.getElem?_cons_succ]
    rcases l₂ with _ | ⟨e, l₂⟩
    · exact Or.inl rfl
    · have hlt := ho.neg key e.1 hkey (h₂ e (by simp)).1 (h₂ e (by simp)).2
      exact Or.inr ⟨e, rfl, hlt⟩
  unfold InternalIndexNode.lookup
  rw [if_neg (by simp)]
  rcases l₁ with _ | ⟨a, t⟩
  · have hlb : lowerBound (fun e => comparator e.1 key) l₂ = (0, false) :=
      lowerBound_split (l := []) (by simp) hpos
    simp only [List.nil_append, List.drop_succ_cons, List.drop_zero]
    rw [hlb]
    rcases hend 1 rfl with hlast | ⟨e, hnext, hlt⟩
    · rw [List.nil_append] at hlast
      simp [hlast]
    · rw [List.nil_append] at hnext
      simp [hnext, hlt]
  · obtain ⟨hkin, hkle⟩ := hk (by simp)
    simp only [List.cons_append, List.drop_succ_cons, List.drop_zero, ne_eq, reduceCtorEq,
      not_false_eq_true, true_and]
    have ht : ∀ e ∈ t, comparator e.1 key < 0 := fun e he =>
      hneg e (h₁ e (by simpa using he)).1 (h₁ e (by simpa using he)).2
    rcases hkle.lt_or_eq with hlt | heq
    · have htk : ∀ e ∈ t ++ [(k, c)], comparator e.1 key < 0 := by
        intro e he
        rcases List.mem_append.mp he with he | he
        · exact ht e he
        · rw [List.mem_singleton] at he
          exact he ▸ hneg (k, c) hkin hlt
      have hlb : lowerBound (fun e => comparator e.1 key) (t ++ [(k, c)] ++ l₂) =
          ((t ++ [(k, c)]).length, false) := lowerBound_split htk hpos
      rw [List.append_assoc, List.singleton_append] at hlb
      rw [hlb, if_neg hlt.ne]
      have hcut : (t ++ [(k, c)]).length + 1 = (a :: t).length + 1 := by simp
      rcases hend _ hcut with hlast | ⟨e, hnext, hlt⟩
      · simp_all
      · simp_all
    · have hlb : lowerBound (fun e => comparator e.1 key) (t ++ (k, c) :: l₂) = (t.length, true) :=
        lowerBound_found ht (ho.zero k key hkin hkey heq) hpos
      rw [hlb, if_pos heq]
      have hkk := ho.zero key k hkey hkin heq.symm
      simp [hkk]

/-- A separator above the key of the child `c` and below the keys after it goes right after `c`. -/
theorem internal_insert (ho : KeyOrder comparator InTree pos) (hkey : InTree key) (parent c q : Int)
    {l₁ l₂ : List (K × Int)} {k : K} (h₁ : ∀ e ∈ l₁.tail, InTree e.1 ∧ pos e.1 < pos key)
    (hk : l₁ ≠ [] → InTree k ∧ pos k < pos key) (h₂ : ∀ e ∈ l₂, InTree e.1 ∧ pos key < pos e.1) :
    InternalIndexNode.insert comparator ⟨parent, l₁ ++ (k, c) :: l₂⟩ key q =
      ⟨parent, l₁ ++ (k, c) :: (key, q) :: l₂⟩ := by
  have hlookup := internal_lookup ho hkey parent c h₁ (fun hne => ⟨(hk hne).1, (hk hne).2.le⟩) h₂
  rw [if_neg (fun hand => (hk hand.1).2.ne hand.2)] at hlookup
  unfold InternalIndexNode.insert
  rw [hlookup]
  simp only [InternalIndexNode.mk.injEq, true_and]
  have hcut : l₁ ++ (k, c) :: l₂ = (l₁ ++ [(k, c)]) ++ l₂ := by simp
  have hlen : l₁.length + 1 = (l₁ ++ [(k, c)]).length := by simp
  rw [hcut, hlen, insertIdx_append_length]
  simp

end Miniob.Storage.Index
