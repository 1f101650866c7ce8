import Mathlib.Data.List.Nodup
import Mathlib.Data.List.TakeWhile
import Miniob.Storage.Index.Find
import Miniob.Storage.Index.Reference

/-!
# Trees of pages

Pages of an index that nobody vouches for. They form a tree if the walk from a page to its children
ends and meets no page twice.

* `IsTree`, `pagesBelow`, `leafPages`: the walk, by recursion on its height.
* `Separated`: the keys of every internal node separate the entries below its children.
* `exec_findLeafLoop`: the descent of the handler as a function of the pages.
* `descend_all_iff`: the descent finds every entry where it is if and only if the keys separate the
  entries.
-/

namespace Miniob.Storage.Index

open Miniob.Lib
open Miniob.Storage.BufferPool (FlatPool flat)

variable {K : Type} {s : FlatPool (IndexPage K)} {p c : Int} {height fuel : ℕ}

/-! ## The pages below a page -/

/-- The keys of a page that are compared; the first one of an internal node is not. -/
def IndexPage.keys : IndexPage K → List K
  | leaf n => n.items.map Prod.fst
  | internal n => (n.items.drop 1).map Prod.fst
  | header _ => []

/-- The walk from a page to its children ends after `height` steps, at leaves. -/
def IsTree (s : FlatPool (IndexPage K)) : ℕ → Int → Prop
  | 0, _ => False
  | height + 1, p => 0 ≤ p ∧ match s.page p with
    | .leaf _ => True
    | .internal n => ∀ e ∈ n.items, IsTree s height e.2
    | .header _ => False

instance decidableIsTree (s : FlatPool (IndexPage K)) :
    (height : ℕ) → (p : Int) → Decidable (IsTree s height p)
  | 0, _ => .isFalse id
  | height + 1, p =>
    have := decidableIsTree s height
    @instDecidableAnd _ _ inferInstance <| match s.page p with
      | .leaf _ => .isTrue trivial
      | .internal n => List.decidableBAll (fun e => IsTree s height e.2) n.items
      | .header _ => .isFalse id

/-- The pages that the walk meets. -/
def pagesBelow (s : FlatPool (IndexPage K)) : ℕ → Int → List Int
  | 0, _ => []
  | height + 1, p => p :: match s.page p with
    | .internal n => n.items.flatMap fun e => pagesBelow s height e.2
    | _ => []

/-- The leaves among them, from left to right. -/
def leafPages (s : FlatPool (IndexPage K)) : ℕ → Int → List Int
  | 0, _ => []
  | height + 1, p => match s.page p with
    | .leaf _ => [p]
    | .internal n => n.items.flatMap fun e => leafPages s height e.2
    | .header _ => []

/-- The entries in these leaves, from left to right. -/
def entriesBelow (s : FlatPool (IndexPage K)) (height : ℕ) (p : Int) : List (K × RID) :=
  (leafPages s height p).flatMap fun q => (s.page q).entries

/-- The pages below a page are a finite tree. -/
structure FiniteTree (s : FlatPool (IndexPage K)) (height : ℕ) (root : Int) : Prop where
  /-- The walk ends. -/
  tree : IsTree s height root
  /-- It meets no page twice. -/
  nodup : (pagesBelow s height root).Nodup

section walk

variable {n : InternalIndexNode K} {l : LeafIndexNode K}

theorem isTree_leaf (hp : s.page p = .leaf l) : IsTree s (height + 1) p ↔ 0 ≤ p := by
  simp [IsTree, hp]

theorem isTree_internal (hp : s.page p = .internal n) :
    IsTree s (height + 1) p ↔ 0 ≤ p ∧ ∀ e ∈ n.items, IsTree s height e.2 := by
  simp [IsTree, hp]

theorem pagesBelow_leaf (hp : s.page p = .leaf l) : pagesBelow s (height + 1) p = [p] := by
  simp [pagesBelow, hp]

theorem pagesBelow_internal (hp : s.page p = .internal n) : pagesBelow s (height + 1) p =
    p :: n.items.flatMap fun e => pagesBelow s height e.2 := by
  simp [pagesBelow, hp]

theorem leafPages_leaf (hp : s.page p = .leaf l) : leafPages s (height + 1) p = [p] := by
  simp [leafPages, hp]

theorem leafPages_internal (hp : s.page p = .internal n) : leafPages s (height + 1) p =
    n.items.flatMap fun e => leafPages s height e.2 := by
  simp [leafPages, hp]

theorem entriesBelow_leaf (hp : s.page p = .leaf l) : entriesBelow s (height + 1) p = l.items := by
  simp [entriesBelow, leafPages_leaf hp, hp, IndexPage.entries]

theorem entriesBelow_internal (hp : s.page p = .internal n) : entriesBelow s (height + 1) p =
    n.items.flatMap fun e => entriesBelow s height e.2 := by
  simp only [entriesBelow, leafPages_internal hp, List.flatMap_assoc]

/-- A tree is a leaf or an internal node. -/
theorem IsTree.cases (h : IsTree s (height + 1) p) :
    (∃ l, s.page p = .leaf l) ∨ ∃ n, s.page p = .internal n := by
  cases hp : s.page p with
  | leaf l => exact Or.inl ⟨l, rfl⟩
  | internal n => exact Or.inr ⟨n, rfl⟩
  | header _ => simp [IsTree, hp] at h

theorem IsTree.nonneg (h : IsTree s height p) : 0 ≤ p := by
  cases height with
  | zero => exact h.elim
  | succ height => exact h.1

/-- Where the walk ends, more steps change nothing. -/
theorem IsTree.pagesBelow_eq (h : IsTree s height p) (hle : height ≤ fuel) :
    IsTree s fuel p ∧ pagesBelow s fuel p = pagesBelow s height p ∧
      leafPages s fuel p = leafPages s height p := by
  induction height generalizing p fuel with
  | zero => exact h.elim
  | succ height ih =>
      obtain ⟨fuel, rfl⟩ : ∃ f, fuel = f + 1 := ⟨fuel - 1, by omega⟩
      rcases h.cases with ⟨l, hp⟩ | ⟨n, hp⟩
      · rw [isTree_leaf hp] at h ⊢
        exact ⟨h, by simp [pagesBelow_leaf hp], by simp [leafPages_leaf hp]⟩
      · rw [isTree_internal hp] at h ⊢
        have hrec : ∀ e ∈ n.items, _ := fun e he => ih (h.2 e he) (Nat.le_of_succ_le_succ hle)
        refine ⟨⟨h.1, fun e he => (hrec e he).1⟩, ?_, ?_⟩
        · rw [pagesBelow_internal hp, pagesBelow_internal hp]
          exact congrArg _ (List.flatMap_congr fun e he => (hrec e he).2.1)
        · rw [leafPages_internal hp, leafPages_internal hp]
          exact List.flatMap_congr fun e he => (hrec e he).2.2

theorem IsTree.entriesBelow_eq (h : IsTree s height p) (hle : height ≤ fuel) :
    entriesBelow s fuel p = entriesBelow s height p := by
  rw [entriesBelow, entriesBelow, (h.pagesBelow_eq hle).2.2]

/-- Leaves are pages. -/
theorem leafPages_subset (s : FlatPool (IndexPage K)) (height : ℕ) (p : Int) :
    leafPages s height p ⊆ pagesBelow s height p := by
  induction height generalizing p with
  | zero => exact List.Subset.refl _
  | succ height ih =>
      intro q hq
      cases hp : s.page p with
      | leaf l =>
          rw [leafPages_leaf hp] at hq
          rwa [pagesBelow_leaf hp]
      | internal n =>
          rw [leafPages_internal hp, List.mem_flatMap] at hq
          obtain ⟨e, he, hq⟩ := hq
          rw [pagesBelow_internal hp]
          exact List.mem_cons_of_mem _ (List.mem_flatMap.mpr ⟨e, he, ih e.2 hq⟩)
      | header _ => simp [leafPages, hp] at hq

/-- They are leaves. -/
theorem exists_leaf_of_mem (hq : c ∈ leafPages s height p) : ∃ l, s.page c = .leaf l := by
  induction height generalizing p with
  | zero => cases hq
  | succ height ih =>
      cases hp : s.page p with
      | leaf l =>
          rw [leafPages_leaf hp, List.mem_singleton] at hq
          exact ⟨l, hq ▸ hp⟩
      | internal n =>
          rw [leafPages_internal hp, List.mem_flatMap] at hq
          obtain ⟨e, -, hq⟩ := hq
          exact ih hq
      | header _ => simp [leafPages, hp] at hq

/-- What is below a child of a page is below the page. -/
theorem mem_pagesBelow_child (hp : s.page p = .internal n) {e : K × Int} (he : e ∈ n.items)
    (hc : c ∈ pagesBelow s height e.2) : c ∈ pagesBelow s (height + 1) p := by
  rw [pagesBelow_internal hp]
  exact List.mem_cons_of_mem _ (List.mem_flatMap.mpr ⟨e, he, hc⟩)

/-- A page is below itself. -/
theorem IsTree.mem_pagesBelow (h : IsTree s height p) : p ∈ pagesBelow s height p := by
  cases height with
  | zero => exact h.elim
  | succ height => exact List.mem_cons_self

/-- What is below a page below `p` is below `p`. -/
theorem pagesBelow_trans (h : IsTree s height p) (hc : c ∈ pagesBelow s height p) :
    IsTree s height c ∧ pagesBelow s height c ⊆ pagesBelow s height p := by
  induction height generalizing p with
  | zero => exact h.elim
  | succ height ih =>
      rcases h.cases with ⟨l, hp⟩ | ⟨n, hp⟩
      · rw [pagesBelow_leaf hp, List.mem_singleton] at hc
        subst hc
        exact ⟨h, List.Subset.refl _⟩
      · have hmem := hc
        rw [pagesBelow_internal hp, List.mem_cons, List.mem_flatMap] at hmem
        rcases hmem with rfl | ⟨e, he, hmem⟩
        · exact ⟨h, List.Subset.refl _⟩
        · obtain ⟨htree, hsub⟩ := ih (((isTree_internal hp).mp h).2 e he) hmem
          obtain ⟨htree', hpages, -⟩ := htree.pagesBelow_eq (Nat.le_succ height)
          refine ⟨htree', fun q hq => mem_pagesBelow_child hp he (hsub ?_)⟩
          rwa [← hpages]

/-- The children of a page below `p`. -/
theorem IsTree.child_of_mem (h : IsTree s height p) (hc : c ∈ pagesBelow s height p)
    (hp : s.page c = .internal n) {e : K × Int} (he : e ∈ n.items) :
    IsTree s height e.2 ∧ e.2 ∈ pagesBelow s height p ∧
      entriesBelow s height e.2 ⊆ entriesBelow s height c := by
  obtain ⟨htree, hsub⟩ := pagesBelow_trans h hc
  cases height with
  | zero => exact h.elim
  | succ height =>
      have hchild := ((isTree_internal hp).mp htree).2 e he
      obtain ⟨htree', hpages, -⟩ := hchild.pagesBelow_eq (Nat.le_succ height)
      refine ⟨htree', hsub (mem_pagesBelow_child hp he hchild.mem_pagesBelow), fun x hx => ?_⟩
      rw [hchild.entriesBelow_eq (Nat.le_succ height)] at hx
      rw [entriesBelow_internal hp]
      exact List.mem_flatMap.mpr ⟨e, he, hx⟩

/-- The children of a page in a tree are trees. -/
theorem FiniteTree.child (h : FiniteTree s (height + 1) p) (hp : s.page p = .internal n)
    {e : K × Int} (he : e ∈ n.items) : FiniteTree s height e.2 := by
  refine ⟨((isTree_internal hp).mp h.tree).2 e he, ?_⟩
  have hnodup := h.nodup
  rw [pagesBelow_internal hp, List.nodup_cons, List.nodup_flatMap] at hnodup
  exact hnodup.2.1 e he

/-- The pages below a page of a finite tree are a finite tree. -/
theorem FiniteTree.of_mem (h : FiniteTree s height p) (hc : c ∈ pagesBelow s height p) :
    FiniteTree s height c := by
  induction height generalizing p with
  | zero => exact h.tree.elim
  | succ height ih =>
      rcases h.tree.cases with ⟨l, hp⟩ | ⟨n, hp⟩
      · rw [pagesBelow_leaf hp, List.mem_singleton] at hc
        exact hc ▸ h
      · rw [pagesBelow_internal hp, List.mem_cons, List.mem_flatMap] at hc
        rcases hc with rfl | ⟨e, he, hc⟩
        · exact h
        · have hrec := ih (h.child hp he) hc
          obtain ⟨htree, hpages, -⟩ := hrec.tree.pagesBelow_eq (Nat.le_succ height)
          exact ⟨htree, hpages ▸ hrec.nodup⟩

/-- No page is below two children. -/
theorem FiniteTree.child_unique (h : FiniteTree s (height + 1) p) (hp : s.page p = .internal n)
    {i j : ℕ} {e f : K × Int} (he : n.items[i]? = some e) (hf : n.items[j]? = some f)
    (hce : c ∈ pagesBelow s height e.2) (hcf : c ∈ pagesBelow s height f.2) : i = j := by
  have hnodup := h.nodup
  rw [pagesBelow_internal hp, List.nodup_cons, List.nodup_flatMap] at hnodup
  obtain ⟨hi, rfl⟩ := List.getElem?_eq_some_iff.mp he
  obtain ⟨hj, rfl⟩ := List.getElem?_eq_some_iff.mp hf
  have hpairs := List.pairwise_iff_getElem.mp hnodup.2.2
  rcases lt_trichotomy i j with hlt | heq | hgt
  · exact (hpairs i j hi hj hlt hce hcf).elim
  · exact heq
  · exact (hpairs j i hj hi hgt hcf hce).elim

/-- A child is at one slot. -/
theorem FiniteTree.valueIndex_eq (h : FiniteTree s height p) (hp : s.page p = .internal n) {i : ℕ}
    {e : K × Int} (he : n.items[i]? = some e) : n.valueIndex e.2 = some i := by
  cases height with
  | zero => exact h.tree.elim
  | succ height =>
      have hmem : ∀ {j : ℕ} {f : K × Int}, n.items[j]? = some f → e.2 = f.2 → i = j := by
        intro j f hf heq
        have hself := (((isTree_internal hp).mp h.tree).2 e
          (List.mem_of_getElem? he)).mem_pagesBelow
        exact h.child_unique hp he hf hself (heq ▸ hself)
      obtain ⟨hi, rfl⟩ := List.getElem?_eq_some_iff.mp he
      rw [InternalIndexNode.valueIndex, List.findIdx?_eq_some_iff_getElem]
      refine ⟨hi, by simp, fun j hji => ?_⟩
      simp only [decide_eq_true_eq]
      intro heq
      have := hmem (List.getElem?_eq_getElem (hji.trans hi)) heq
      omega

end walk

/-! ## The descent -/

/-- The leaf that the choice of an index in every internal node leads to. -/
def descend (index : InternalIndexNode K → ℕ) (s : FlatPool (IndexPage K)) : ℕ → Int → Option Int
  | 0, _ => none
  | height + 1, p => match s.page p with
    | .leaf _ => some p
    | .internal n => n.items[index n]?.bind fun e => descend index s height e.2
    | .header _ => none

section descend

variable {header : IndexFileHeader} {index : InternalIndexNode K → ℕ} {n : InternalIndexNode K}
  {l : LeafIndexNode K} {q : Int}

theorem descend_leaf (hp : s.page p = .leaf l) : descend index s (height + 1) p = some p := by
  simp [descend, hp]

theorem descend_internal (hp : s.page p = .internal n) : descend index s (height + 1) p =
    n.items[index n]?.bind fun e => descend index s height e.2 := by
  simp [descend, hp]

/-- The loop of the handler. -/
theorem exec_findLeafLoop (index : InternalIndexNode K → ℕ) (fuel : ℕ) (p : Int) :
    exec flat (findLeafLoop (fun n => valueAt n (index n)) fuel p) header s =
      (descend index s fuel p).map fun q => (((.success, q), header), s) := by
  induction fuel generalizing p with
  | zero => rfl
  | succ fuel ih =>
      cases hp : s.page p with
      | leaf l => simp [findLeafLoop, descend_leaf hp, hp, IndexPage.isLeaf]
      | internal n =>
          rw [descend_internal hp]
          cases hitem : n.items[index n]? with
          | none => simp [findLeafLoop, hp, IndexPage.isLeaf, hitem]
          | some e => simp [findLeafLoop, hp, IndexPage.isLeaf, hitem, ih]
      | header _ => simp [findLeafLoop, descend, hp, IndexPage.isLeaf]

theorem exec_findLeafInternal (hroot : header.rootPage ≠ bpInvalidPageNum)
    (index : InternalIndexNode K → ℕ) (fuel : ℕ) :
    exec flat (findLeafInternal fuel fun n => valueAt n (index n)) header s =
      (descend index s fuel header.rootPage).map fun q => (((.success, q), header), s) := by
  simp [findLeafInternal, isEmpty, hroot, exec_findLeafLoop]

/-- The descent stays below the page. -/
theorem mem_leafPages_of_descend (h : descend index s height p = some q) :
    q ∈ leafPages s height p := by
  induction height generalizing p with
  | zero => cases h
  | succ height ih =>
      cases hp : s.page p with
      | leaf l =>
          rw [descend_leaf hp, Option.some.injEq] at h
          rw [leafPages_leaf hp]
          simp [h]
      | internal n =>
          rw [descend_internal hp, Option.bind_eq_some_iff] at h
          obtain ⟨e, he, h⟩ := h
          rw [leafPages_internal hp]
          exact List.mem_flatMap.mpr ⟨e, List.mem_of_getElem? he, ih h⟩
      | header _ => simp [descend, hp] at h

/-- In a tree the descent does not need more steps than the tree is high. -/
theorem IsTree.descend_eq (h : IsTree s height p) (hle : height ≤ fuel) :
    descend index s fuel p = descend index s height p := by
  induction height generalizing p fuel with
  | zero => exact h.elim
  | succ height ih =>
      obtain ⟨fuel, rfl⟩ : ∃ f, fuel = f + 1 := ⟨fuel - 1, by omega⟩
      rcases h.cases with ⟨l, hp⟩ | ⟨n, hp⟩
      · rw [descend_leaf hp, descend_leaf hp]
      · rw [descend_internal hp, descend_internal hp]
        refine Option.bind_congr fun e he => ?_
        exact ih (((isTree_internal hp).mp h).2 e (List.mem_of_getElem? he))
          (Nat.le_of_succ_le_succ hle)

end descend

/-! ## Keys that separate -/

section keys

variable [LinearOrder K] {comparator : K → K → Int} {InTree : K → Prop} {n : InternalIndexNode K}
  {key : K}

/-- A key belongs to slot `i` of an internal node: it is not below the key of the slot and below the
next one. The key of slot 0 does not count. -/
def Belongs (items : List (K × Int)) (i : ℕ) (key : K) : Prop :=
  (∀ e, items[i]? = some e → i ≠ 0 → e.1 ≤ key) ∧ ∀ e, items[i + 1]? = some e → key < e.1

/-- The keys of every internal node separate the entries below its children. -/
def Separated (s : FlatPool (IndexPage K)) : ℕ → Int → Prop
  | 0, _ => True
  | height + 1, p => match s.page p with
    | .internal n => ∀ i e, n.items[i]? = some e →
        (∀ x ∈ entriesBelow s height e.2, Belongs n.items i x.1) ∧ Separated s height e.2
    | _ => True

theorem separated_internal (hp : s.page p = .internal n) :
    Separated s (height + 1) p ↔ ∀ i e, n.items[i]? = some e →
      (∀ x ∈ entriesBelow s height e.2, Belongs n.items i x.1) ∧ Separated s height e.2 := by
  simp [Separated, hp]

/-- Every key belongs to a slot. -/
theorem exists_belongs {items : List (K × Int)} (hne : items ≠ []) (key : K) :
    ∃ i < items.length, Belongs items i key := by
  obtain ⟨e, rest, rfl⟩ := List.exists_cons_of_ne_nil hne
  have hsplit := List.takeWhile_append_dropWhile (p := fun f : K × Int => f.1 ≤ key) (l := rest)
  generalize hl : rest.takeWhile (fun f => f.1 ≤ key) = l at hsplit
  generalize hr : rest.dropWhile (fun f => f.1 ≤ key) = r at hsplit
  have hlength : l.length < (e :: rest).length := by
    rw [← hsplit, List.length_cons, List.length_append]
    omega
  refine ⟨l.length, hlength, fun f hf hpos => ?_, fun f hf => ?_⟩
  · obtain ⟨j, hj⟩ := Nat.exists_eq_succ_of_ne_zero hpos
    rw [hj, List.getElem?_cons_succ, ← hsplit, List.getElem?_append_left (by omega)] at hf
    have hmem : f ∈ rest.takeWhile fun f => f.1 ≤ key := hl ▸ List.mem_of_getElem? hf
    simpa using List.mem_takeWhile_imp hmem
  · rw [List.getElem?_cons_succ, ← hsplit, List.getElem?_append_right le_rfl, Nat.sub_self] at hf
    have hhead : (rest.dropWhile fun f => f.1 ≤ key).head? = some f := by
      rw [hr, List.head?_eq_getElem?]
      exact hf
    have hnot := List.head?_dropWhile_not (fun f : K × Int => decide (f.1 ≤ key)) rest
    rw [hhead] at hnot
    simpa using hnot

/-- The search in an internal node with sorted keys ends at the slot the key belongs to. -/
theorem lookup_of_belongs (ho : OrdersKeys comparator InTree)
    (hsorted : ((n.items.drop 1).map Prod.fst).Pairwise (· < ·))
    (hin : ∀ e ∈ n.items.drop 1, InTree e.1) (hkey : InTree key) {i : ℕ} (hi : i < n.items.length)
    (h : Belongs n.items i key) : (n.lookup comparator key).1 = i := by
  obtain ⟨parent, items⟩ := n
  obtain ⟨e, he⟩ : ∃ e, items[i]? = some e := ⟨_, List.getElem?_eq_getElem hi⟩
  have hsplit : items = items.take i ++ e :: items.drop (i + 1) := by
    conv_lhs => rw [← List.take_append_drop i items, List.drop_eq_getElem?_toList_append, he]
    rfl
  have hlength : (items.take i).length = i := by
    rw [List.length_take]
    exact min_eq_left hi.le
  have hnext : ∀ f, (items.drop (i + 1))[0]? = some f → key < f.1 := by
    intro f hf
    rw [List.getElem?_drop, Nat.add_zero] at hf
    exact h.2 f hf
  have hle := h.1 e he
  generalize items.take i = l₁ at hsplit hlength
  generalize items.drop (i + 1) = l₂ at hsplit hnext
  subst hsplit hlength
  have habove : (l₂.map Prod.fst).Pairwise (· < ·) → ∀ f ∈ l₂, key < f.1 := by
    intro hpairs f hf
    cases l₂ with
    | nil => cases hf
    | cons b l₂ =>
        have hb := hnext b rfl
        rcases List.mem_cons.mp hf with rfl | hf
        · exact hb
        · rw [List.map_cons, List.pairwise_cons] at hpairs
          exact hb.trans (hpairs.1 f.1 (List.mem_map_of_mem hf))
  have hlookup : ∀ (_ : ∀ f ∈ l₁.tail, InTree f.1 ∧ f.1 < key) (_ : l₁ ≠ [] → InTree e.1)
      (_ : ∀ f ∈ l₂, InTree f.1 ∧ key < f.1),
      (InternalIndexNode.lookup comparator ⟨parent, l₁ ++ e :: l₂⟩ key).1 = l₁.length := by
    intro h₁ hk h₂
    rw [internal_lookup ho.keyOrder hkey parent e.2
      (fun f hf => ⟨(h₁ f hf).1, place_lt_place.mpr (h₁ f hf).2⟩)
      (fun hne => ⟨hk hne, place_le_place.mpr (hle (by simpa using hne))⟩)
      (fun f hf => ⟨(h₂ f hf).1, place_lt_place.mpr (h₂ f hf).2⟩)]
  cases l₁ with
  | nil =>
      simp only [List.nil_append, List.drop_succ_cons, List.drop_zero] at hsorted hin
      exact hlookup (by simp) (by simp) fun f hf => ⟨hin f hf, habove hsorted f hf⟩
  | cons a t =>
      simp only [List.cons_append, List.drop_succ_cons, List.drop_zero, List.map_append,
        List.map_cons, List.pairwise_append, List.pairwise_cons] at hsorted hin
      obtain ⟨-, ⟨-, hafter⟩, hbefore⟩ := hsorted
      refine hlookup (fun f hf => ⟨hin f (List.mem_append_left _ hf), ?_⟩)
        (fun _ => hin e (by simp))
        fun f hf => ⟨hin f (by simp [hf]), habove hafter f hf⟩
      exact (hbefore f.1 (List.mem_map_of_mem hf) e.1 (by simp)).trans_le (hle (by simp))

/-- It ends at no other slot. -/
theorem lookup_eq_iff (ho : OrdersKeys comparator InTree)
    (hsorted : ((n.items.drop 1).map Prod.fst).Pairwise (· < ·))
    (hin : ∀ e ∈ n.items.drop 1, InTree e.1) (hkey : InTree key) {i : ℕ} (hi : i < n.items.length) :
    (n.lookup comparator key).1 = i ↔ Belongs n.items i key := by
  constructor
  · intro h
    have hne : n.items ≠ [] := fun hnil => by
      rw [hnil] at hi
      cases hi
    obtain ⟨j, hj, hbelongs⟩ := exists_belongs hne key
    have hij : j = i := by rw [← h, lookup_of_belongs ho hsorted hin hkey hj hbelongs]
    exact hij ▸ hbelongs
  · exact lookup_of_belongs ho hsorted hin hkey hi

/-! ## Finding every entry -/

/-- The keys below a page can be compared, and those of internal nodes are sorted. -/
structure KeysInv (InTree : K → Prop) (s : FlatPool (IndexPage K)) (height : ℕ) (p : Int) :
    Prop where
  /-- They can be compared. -/
  inTree : ∀ q ∈ pagesBelow s height p, ∀ k ∈ (s.page q).keys, InTree k
  /-- Those of internal nodes are sorted. -/
  sorted : ∀ q ∈ pagesBelow s height p, ∀ n, s.page q = .internal n →
    ((n.items.drop 1).map Prod.fst).Pairwise (· < ·)

theorem KeysInv.child (h : KeysInv InTree s (height + 1) p) (hp : s.page p = .internal n)
    {e : K × Int} (he : e ∈ n.items) : KeysInv InTree s height e.2 :=
  ⟨fun q hq => h.inTree q (mem_pagesBelow_child hp he hq),
    fun q hq => h.sorted q (mem_pagesBelow_child hp he hq)⟩

/-- Entries have keys that can be compared. -/
theorem KeysInv.entry (h : KeysInv InTree s height p) {q : Int} (hq : q ∈ leafPages s height p)
    {x : K × RID} (hx : x ∈ (s.page q).entries) : InTree x.1 := by
  refine h.inTree q (leafPages_subset s height p hq) x.1 ?_
  obtain ⟨l, hl⟩ := exists_leaf_of_mem hq
  rw [hl] at hx ⊢
  exact List.mem_map_of_mem hx

/-- The descent with a key. -/
abbrev descendKey (comparator : K → K → Int) (s : FlatPool (IndexPage K)) (height : ℕ) (key : K)
    (p : Int) : Option Int :=
  descend (fun n => (n.lookup comparator key).1) s height p

/-- **The descent finds every entry where it is if and only if the keys separate the entries.** By
induction on the height: the descent takes the right child if and only if the key belongs to its
slot, because no leaf is below two children. -/
theorem descend_all_iff (ho : OrdersKeys comparator InTree) (h : FiniteTree s height p)
    (hkeys : KeysInv InTree s height p) :
    (∀ q ∈ leafPages s height p, ∀ x ∈ (s.page q).entries,
      descendKey comparator s height x.1 p = some q) ↔ Separated s height p := by
  induction height generalizing p with
  | zero => exact h.tree.elim
  | succ height ih =>
      rcases h.tree.cases with ⟨l, hp⟩ | ⟨n, hp⟩
      · simp [leafPages_leaf hp, descendKey, descend_leaf hp, Separated, hp]
      have hself : p ∈ pagesBelow s (height + 1) p := h.tree.mem_pagesBelow
      have hsorted := hkeys.sorted p hself n hp
      have hin : ∀ e ∈ n.items.drop 1, InTree e.1 := by
        intro e he
        refine hkeys.inTree p hself e.1 ?_
        rw [hp]
        exact List.mem_map_of_mem he
      have hslot : ∀ {i : ℕ} {e : K × Int}, n.items[i]? = some e → ∀ q ∈ leafPages s height e.2,
          ∀ x ∈ (s.page q).entries, (descendKey comparator s (height + 1) x.1 p = some q ↔
            Belongs n.items i x.1 ∧ descendKey comparator s height x.1 e.2 = some q) := by
        intro i e he q hq x hx
        have hi := (List.getElem?_eq_some_iff.mp he).1
        have hxin := (hkeys.child hp (List.mem_of_getElem? he)).entry hq hx
        rw [← lookup_eq_iff ho hsorted hin hxin hi, descendKey, descend_internal hp,
          Option.bind_eq_some_iff]
        constructor
        · rintro ⟨f, hf, hdown⟩
          have hqf := leafPages_subset _ _ _ (mem_leafPages_of_descend hdown)
          have hij := h.child_unique hp hf he hqf (leafPages_subset _ _ _ hq)
          rw [hij, he, Option.some.injEq] at hf
          exact ⟨hij, hf ▸ hdown⟩
        · rintro ⟨hij, hdown⟩
          exact ⟨e, hij ▸ he, hdown⟩
      rw [separated_internal hp]
      constructor
      · intro hall i e he
        have hmem := List.mem_of_getElem? he
        have hboth : ∀ q ∈ leafPages s height e.2, ∀ x ∈ (s.page q).entries, _ := fun q hq x hx =>
          (hslot he q hq x hx).mp (hall q (by
            rw [leafPages_internal hp]
            exact List.mem_flatMap.mpr ⟨e, hmem, hq⟩) x hx)
        refine ⟨fun x hx => ?_, ?_⟩
        · obtain ⟨q, hq, hx⟩ := List.mem_flatMap.mp hx
          exact (hboth q hq x hx).1
        · refine (ih (h.child hp hmem) (hkeys.child hp hmem)).mp fun q hq x hx => ?_
          exact (hboth q hq x hx).2
      · intro hsep q hq x hx
        rw [leafPages_internal hp] at hq
        obtain ⟨e, hmem, hq⟩ := List.mem_flatMap.mp hq
        obtain ⟨i, he⟩ := List.getElem?_of_mem hmem
        refine (hslot he q hq x hx).mpr ⟨(hsep i e he).1 x (List.mem_flatMap.mpr ⟨q, hq, hx⟩), ?_⟩
        exact (ih (h.child hp hmem) (hkeys.child hp hmem)).mpr (hsep i e he).2 q hq x hx

/-! ## Checks of single nodes -/

/-- The keys of every node are sorted and lie between the key beside the node in its parent and the
next one. For an internal node these are the keys from the second on. -/
structure NodesChecked (s : FlatPool (IndexPage K)) (height : ℕ) (p : Int) : Prop where
  /-- The keys are sorted. -/
  sorted : ∀ q ∈ pagesBelow s height p, (s.page q).keys.Pairwise (· < ·)
  /-- They are not below the key beside the node, unless this is the first. -/
  first : ∀ q ∈ pagesBelow s height p, ∀ n, s.page q = .internal n → ∀ i e,
    n.items[i]? = some e → i ≠ 0 → ∀ k ∈ (s.page e.2).keys.head?, e.1 ≤ k
  /-- They are below the next key. -/
  last : ∀ q ∈ pagesBelow s height p, ∀ n, s.page q = .internal n → ∀ i e f,
    n.items[i]? = some e → n.items[i + 1]? = some f → ∀ k ∈ (s.page e.2).keys.getLast?, k < f.1

/-- The entries at the edges of an internal node, below its first and its last child, lie between
the key beside the node in its parent and the next one. -/
structure EdgesChecked (s : FlatPool (IndexPage K)) (height : ℕ) (p : Int) : Prop where
  /-- Those below the first child. -/
  left : ∀ q ∈ pagesBelow s height p, ∀ n, s.page q = .internal n → ∀ i e,
    n.items[i]? = some e → i ≠ 0 → ∀ m, s.page e.2 = .internal m → ∀ b ∈ m.items.head?,
    ∀ x ∈ entriesBelow s height b.2, e.1 ≤ x.1
  /-- Those below the last child. -/
  right : ∀ q ∈ pagesBelow s height p, ∀ n, s.page q = .internal n → ∀ i e f,
    n.items[i]? = some e → n.items[i + 1]? = some f → ∀ m, s.page e.2 = .internal m →
    ∀ b ∈ m.items.getLast?, ∀ x ∈ entriesBelow s height b.2, x.1 < f.1

theorem NodesChecked.child (h : NodesChecked s (height + 1) p) (hp : s.page p = .internal n)
    {e : K × Int} (he : e ∈ n.items) : NodesChecked s height e.2 :=
  ⟨fun q hq => h.sorted q (mem_pagesBelow_child hp he hq),
    fun q hq => h.first q (mem_pagesBelow_child hp he hq),
    fun q hq => h.last q (mem_pagesBelow_child hp he hq)⟩

theorem EdgesChecked.child (h : EdgesChecked s (height + 1) p) (htree : IsTree s (height + 1) p)
    (hp : s.page p = .internal n) {e : K × Int} (he : e ∈ n.items) :
    EdgesChecked s height e.2 := by
  have hsame : ∀ q ∈ pagesBelow s height e.2, ∀ m, s.page q = .internal m → ∀ f ∈ m.items, ∀ N,
      s.page f.2 = .internal N → ∀ b ∈ N.items,
      entriesBelow s (height + 1) b.2 = entriesBelow s height b.2 := by
    intro q hq m hm f hf N hN b hb
    have hchild := ((isTree_internal hp).mp htree).2 e he
    obtain ⟨-, hmem, -⟩ := hchild.child_of_mem hq hm hf
    exact (hchild.child_of_mem hmem hN hb).1.entriesBelow_eq (Nat.le_succ height)
  refine ⟨fun q hq m hm i f hf hi N hN b hb x hx => ?_,
    fun q hq m hm i f g hf hg N hN b hb x hx => ?_⟩
  · refine h.left q (mem_pagesBelow_child hp he hq) m hm i f hf hi N hN b hb x ?_
    rwa [hsame q hq m hm f (List.mem_of_getElem? hf) N hN b (List.mem_of_mem_head? hb)]
  · refine h.right q (mem_pagesBelow_child hp he hq) m hm i f g hf hg N hN b hb x ?_
    rwa [hsame q hq m hm f (List.mem_of_getElem? hf) N hN b (List.mem_of_mem_getLast? hb)]

/-- Where the keys separate the entries, they do so everywhere. -/
theorem Separated.of_mem (h : Separated s height p) (htree : IsTree s height p) {q : Int}
    (hq : q ∈ pagesBelow s height p) (hn : s.page q = .internal n) {i : ℕ} {e : K × Int}
    (he : n.items[i]? = some e) {x : K × RID} (hx : x ∈ entriesBelow s height e.2) :
    Belongs n.items i x.1 := by
  induction height generalizing p with
  | zero => exact htree.elim
  | succ height ih =>
      rcases htree.cases with ⟨l, hp⟩ | ⟨m, hp⟩
      · rw [pagesBelow_leaf hp, List.mem_singleton] at hq
        rw [hq, hp] at hn
        cases hn
      rw [separated_internal hp] at h
      have hchildren := ((isTree_internal hp).mp htree).2
      rw [pagesBelow_internal hp, List.mem_cons, List.mem_flatMap] at hq
      rcases hq with rfl | ⟨f, hf, hq⟩
      · obtain rfl : n = m := IndexPage.internal.inj (hn.symm.trans hp)
        rw [(hchildren e (List.mem_of_getElem? he)).entriesBelow_eq (Nat.le_succ height)] at hx
        exact (h i e he).1 x hx
      · obtain ⟨j, hj⟩ := List.getElem?_of_mem hf
        obtain ⟨htree', -⟩ := (hchildren f hf).child_of_mem hq hn (List.mem_of_getElem? he)
        rw [htree'.entriesBelow_eq (Nat.le_succ height)] at hx
        exact ih (h j f hj).2 (hchildren f hf) hq hx

/-- A key of a sorted list lies between the first and the last one. -/
theorem head_le_getLast {keys : List K} (h : keys.Pairwise (· < ·)) {k : K} (hk : k ∈ keys) :
    (∃ a ∈ keys.head?, a ≤ k) ∧ ∃ b ∈ keys.getLast?, k ≤ b := by
  constructor
  · obtain ⟨a, keys, rfl⟩ := List.exists_cons_of_ne_nil (List.ne_nil_of_mem hk)
    refine ⟨a, rfl, ?_⟩
    rcases List.mem_cons.mp hk with rfl | hk
    · exact le_rfl
    · exact ((List.pairwise_cons.mp h).1 k hk).le
  · obtain ⟨init, b, rfl⟩ := (List.eq_nil_or_concat' keys).resolve_left (List.ne_nil_of_mem hk)
    refine ⟨b, by simp, ?_⟩
    rcases List.mem_append.mp hk with hk | hk
    · exact ((List.pairwise_append.mp h).2.2 k hk b (by simp)).le
    · exact (List.mem_singleton.mp hk).le

omit [LinearOrder K] in
/-- The keys from the second item on. -/
theorem mem_keys_internal {m : InternalIndexNode K} (hm : s.page c = .internal m) {j : ℕ}
    {b : K × Int} (hb : m.items[j]? = some b) (hj : j ≠ 0) : b.1 ∈ (s.page c).keys := by
  rw [hm]
  refine List.mem_map_of_mem (List.mem_of_getElem? (i := j - 1) ?_)
  rw [List.getElem?_drop, Nat.add_sub_cancel' (Nat.pos_of_ne_zero hj)]
  exact hb

/-- **Checked nodes separate the entries if and only if their edges are checked.** By induction on
the height: the entries below the inner children of a node lie between keys of the node, which are
checked. -/
theorem separated_iff (htree : IsTree s height p) (h : NodesChecked s height p) :
    Separated s height p ↔ EdgesChecked s height p := by
  constructor
  · intro hsep
    refine ⟨fun q hq n hn i e he hi m hm b hb x hx => ?_,
      fun q hq n hn i e f he hf m hm b hb x hx => ?_⟩
    · obtain ⟨-, hmem, -⟩ := htree.child_of_mem hq hn (List.mem_of_getElem? he)
      obtain ⟨-, -, hsub⟩ := htree.child_of_mem hmem hm (List.mem_of_mem_head? hb)
      exact (hsep.of_mem htree hq hn he (hsub hx)).1 e he hi
    · obtain ⟨-, hmem, -⟩ := htree.child_of_mem hq hn (List.mem_of_getElem? he)
      obtain ⟨-, -, hsub⟩ := htree.child_of_mem hmem hm (List.mem_of_mem_getLast? hb)
      exact (hsep.of_mem htree hq hn he (hsub hx)).2 f hf
  · intro hedges
    induction height generalizing p with
    | zero => exact htree.elim
    | succ height ih =>
        rcases htree.cases with ⟨l, hp⟩ | ⟨n, hp⟩
        · simp [Separated, hp]
        have hself : p ∈ pagesBelow s (height + 1) p := htree.mem_pagesBelow
        rw [separated_internal hp]
        intro i e he
        have hmem := List.mem_of_getElem? he
        have hchild := ((isTree_internal hp).mp htree).2 e hmem
        have hsep := ih hchild (h.child hp hmem) (hedges.child htree hp hmem)
        refine ⟨fun x hx => ?_, hsep⟩
        have hsorted := h.sorted e.2 (mem_pagesBelow_child hp hmem hchild.mem_pagesBelow)
        -- a key of the child lies between the keys of the node
        have hkey : ∀ k ∈ (s.page e.2).keys, (i ≠ 0 → e.1 ≤ k) ∧
            ∀ f, n.items[i + 1]? = some f → k < f.1 := by
          intro k hk
          obtain ⟨⟨a, ha, hak⟩, b, hb, hkb⟩ := head_le_getLast hsorted hk
          exact ⟨fun hi => (h.first p hself n hp i e he hi a ha).trans hak,
            fun f hf => hkb.trans_lt (h.last p hself n hp i e f he hf b hb)⟩
        have hslot : ∀ {e'}, n.items[i]? = some e' → e = e' := fun he' =>
          Option.some.inj (he.symm.trans he')
        cases height with
        | zero => exact hchild.elim
        | succ height =>
            rcases hchild.cases with ⟨l, hl⟩ | ⟨m, hm⟩
            · rw [entriesBelow_leaf hl] at hx
              have hx : x.1 ∈ (s.page e.2).keys := by
                rw [hl]
                exact List.mem_map_of_mem hx
              exact ⟨fun e' he' hi => hslot he' ▸ (hkey x.1 hx).1 hi, (hkey x.1 hx).2⟩
            · rw [entriesBelow_internal hm] at hx
              obtain ⟨b, hb, hx⟩ := List.mem_flatMap.mp hx
              obtain ⟨j, hj⟩ := List.getElem?_of_mem hb
              obtain ⟨hlow, hhigh⟩ := ((separated_internal hm).mp hsep j b hj).1 x hx
              have hx' : x ∈ entriesBelow s (height + 1 + 1) b.2 := by
                have hb' := ((isTree_internal hm).mp hchild).2 b hb
                rwa [hb'.entriesBelow_eq (by omega)]
              refine ⟨fun e' he' hi => ?_, fun f hf => ?_⟩
              · rw [← hslot he']
                by_cases hzero : j = 0
                · refine hedges.left p hself n hp i e he hi m hm b ?_ x hx'
                  rw [List.head?_eq_getElem?, ← hzero]
                  exact hj
                · exact ((hkey b.1 (mem_keys_internal hm hj hzero)).1 hi).trans (hlow b hj hzero)
              · rcases hnext : m.items[j + 1]? with _ | g
                · refine hedges.right p hself n hp i e f he hf m hm b ?_ x hx'
                  have hlast : m.items.length = j + 1 := by
                    have := (List.getElem?_eq_some_iff.mp hj).1
                    have := List.getElem?_eq_none_iff.mp hnext
                    omega
                  rw [List.getLast?_eq_getElem?, hlast]
                  exact hj
                · exact (hhigh g hnext).trans
                    ((hkey g.1 (mem_keys_internal hm hnext (Nat.succ_ne_zero j))).2 f hf)

/-- Where the keys separate the entries, these are sorted. -/
theorem Separated.entries_sorted (h : Separated s height p) (htree : IsTree s height p)
    (hsorted : ∀ q ∈ pagesBelow s height p, (s.page q).keys.Pairwise (· < ·)) :
    (entriesBelow s height p).Pairwise fun x y => x.1 < y.1 := by
  induction height generalizing p with
  | zero => exact htree.elim
  | succ height ih =>
      have hself := hsorted p htree.mem_pagesBelow
      rcases htree.cases with ⟨l, hp⟩ | ⟨n, hp⟩
      · rw [hp, IndexPage.keys, List.pairwise_map] at hself
        rwa [entriesBelow_leaf hp]
      · rw [separated_internal hp] at h
        rw [hp, IndexPage.keys] at hself
        have hchildren := ((isTree_internal hp).mp htree).2
        rw [entriesBelow_internal hp, List.pairwise_flatMap]
        constructor
        · intro e he
          obtain ⟨i, hi⟩ := List.getElem?_of_mem he
          exact ih (h i e hi).2 (hchildren e he) fun q hq =>
            hsorted q (mem_pagesBelow_child hp he hq)
        · rw [List.pairwise_iff_getElem]
          intro i j hi hj hij x hx y hy
          have hx := ((h i _ (List.getElem?_eq_getElem hi)).1 x hx).2 _
            (List.getElem?_eq_getElem (by omega))
          have hy := ((h j _ (List.getElem?_eq_getElem hj)).1 y hy).1 _
            (List.getElem?_eq_getElem hj) (by omega)
          refine hx.trans_le (le_trans ?_ hy)
          rcases Nat.lt_or_eq_of_le (Nat.succ_le_of_lt hij) with hlt | heq
          · have hpairs := List.pairwise_iff_getElem.mp hself i (j - 1)
              (by simp only [List.length_map, List.length_drop]; omega)
              (by simp only [List.length_map, List.length_drop]; omega) (by omega)
            simp only [List.getElem_map, List.getElem_drop] at hpairs
            have hj' : 1 + (j - 1) = j := by omega
            have hi' : 1 + i = i + 1 := by omega
            simp only [hj', hi'] at hpairs
            exact hpairs.le
          · simp only [← heq]
            exact le_rfl

end keys

/-! ## Following the leaves -/

/-- The pages that `next_brother` leads to, from a page on. -/
def nextLeaves (s : FlatPool (IndexPage K)) : ℕ → Int → List Int
  | 0, _ => []
  | fuel + 1, p => if p = bpInvalidPageNum then [] else p :: nextLeaves s fuel (s.page p).next

/-- Each leaf of a list names the one behind it as its `next_brother`, and the last one none. -/
def LinksNext (s : FlatPool (IndexPage K)) : List Int → Prop
  | [] => True
  | [p] => (s.page p).next = bpInvalidPageNum
  | p :: q :: leaves => (s.page p).next = q ∧ LinksNext s (q :: leaves)

instance decidableLinksNext (s : FlatPool (IndexPage K)) :
    (leaves : List Int) → Decidable (LinksNext s leaves)
  | [] => .isTrue trivial
  | [p] => inferInstanceAs (Decidable ((s.page p).next = bpInvalidPageNum))
  | _ :: q :: leaves => @instDecidableAnd _ _ inferInstance (decidableLinksNext s (q :: leaves))

/-- Following the links reads the list if and only if they lead from leaf to leaf. -/
theorem nextLeaves_eq_iff {leaves : List Int} (h : ∀ q ∈ p :: leaves, 0 ≤ q) :
    nextLeaves s ((p :: leaves).length + 1) p = p :: leaves ↔ LinksNext s (p :: leaves) := by
  have hne : ∀ q ∈ p :: leaves, q ≠ bpInvalidPageNum := fun q hq heq => by
    have := h q hq
    rw [heq, bpInvalidPageNum] at this
    omega
  rw [nextLeaves, if_neg (hne p (by simp)), List.length_cons, List.cons.injEq]
  simp only [true_and]
  induction leaves generalizing p with
  | nil => by_cases hend : (s.page p).next = bpInvalidPageNum <;> simp [nextLeaves, LinksNext, hend]
  | cons q leaves ih =>
      have hq := hne q (by simp)
      have hrest : LinksNext s (q :: leaves) ↔
          nextLeaves s (leaves.length + 1) (s.page q).next = leaves :=
        (ih (fun r hr => h r (List.mem_cons_of_mem _ hr)) fun r hr =>
          hne r (List.mem_cons_of_mem _ hr)).symm
      rw [LinksNext, hrest, nextLeaves, List.length_cons]
      by_cases hend : (s.page p).next = bpInvalidPageNum
      · rw [if_pos hend, hend]
        exact iff_of_false (by simp) fun heq => hq heq.1.symm
      · rw [if_neg hend, List.cons.injEq]
        exact and_congr_right fun heq => by rw [heq]

/-- The descent to the left ends at the first leaf. -/
theorem head?_leafPages {q : Int} (h : descend (fun _ => 0) s height p = some q) :
    (leafPages s height p).head? = some q := by
  induction height generalizing p with
  | zero => cases h
  | succ height ih =>
      cases hp : s.page p with
      | leaf l =>
          rw [descend_leaf hp] at h
          rw [leafPages_leaf hp]
          exact h
      | internal n =>
          rw [descend_internal hp, Option.bind_eq_some_iff] at h
          obtain ⟨e, he, h⟩ := h
          rw [← List.head?_eq_getElem?] at he
          obtain ⟨items, hitems⟩ := List.head?_eq_some_iff.mp he
          rw [leafPages_internal hp, hitems, List.flatMap_cons, List.head?_append, ih h]
          rfl
      | header _ => simp [descend, hp] at h

end Miniob.Storage.Index
