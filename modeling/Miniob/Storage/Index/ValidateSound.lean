import Miniob.Storage.Index.PageTree
import Miniob.Storage.Index.Validate

/-!
# What a valid tree is

`validate_tree` on any tree of pages. If it answers `true`, every node has passed its checks
(`nodesChecked_of_valid`). These compare a node with its parent only, and an internal node from its
second key on: the entries below its first and below its last child are not compared with the keys
of nodes further up. `validate_leaf_link` compares neighbours in the list of leaves, and not the list
with the tree.

`validate_tree_sound_iff`: a tree that has been validated finds its entries, and its links its
leaves, if and only if what is left out holds. A read of a key behind the items of a node has no
value here.
-/

namespace Miniob.Storage.Index

open Miniob.Lib
open Miniob.Storage.BufferPool (FlatPool flat)

variable {K α β : Type} {s : FlatPool (IndexPage K)} {header : IndexFileHeader} {p c : Int}
  {height fuel : ℕ}

/-! ## Programs that only read -/

/-- The program changes neither the header nor the file. -/
def ReadOnly (x : TreeM K α) : Prop :=
  ∀ header s a header' s', exec flat x header s = some ((a, header'), s') →
    header' = header ∧ s' = s

theorem andThen_eq_some {r : Option ((α × IndexFileHeader) × FlatPool (IndexPage K))}
    {f : α → IndexFileHeader → FlatPool (IndexPage K) → Option β} {b : β} :
    andThen r f = some b ↔ ∃ a header s, r = some ((a, header), s) ∧ f a header s = some b := by
  unfold andThen
  rw [Option.bind_eq_some_iff]
  constructor
  · rintro ⟨⟨⟨a, header⟩, s⟩, hr, hf⟩
    exact ⟨a, header, s, hr, hf⟩
  · rintro ⟨a, header, s, hr, hf⟩
    exact ⟨((a, header), s), hr, hf⟩

theorem ReadOnly.pure (a : α) : ReadOnly (Pure.pure a : TreeM K α) := by
  intro header s b header' s' h
  simp only [exec_pure, Option.some.injEq, Prod.mk.injEq] at h
  exact ⟨h.1.2.symm, h.2.symm⟩

theorem ReadOnly.bind {x : TreeM K α} {f : α → TreeM K β} (hx : ReadOnly x)
    (hf : ∀ a, ReadOnly (f a)) : ReadOnly (x >>= f) := by
  intro header s b header' s' h
  rw [exec_bind, andThen_eq_some] at h
  obtain ⟨a, header₁, s₁, hxa, hfb⟩ := h
  obtain ⟨rfl, rfl⟩ := hx _ _ _ _ _ hxa
  exact hf a _ _ _ _ _ hfb

theorem ReadOnly.ite {P : Prop} [Decidable P] {x y : TreeM K α} (hx : ReadOnly x)
    (hy : ReadOnly y) : ReadOnly (if P then x else y) := by
  split
  · exact hx
  · exact hy

theorem ReadOnly.fail : ReadOnly (TreeM.fail : TreeM K α) := by
  intro header s b header' s' h
  cases h

theorem ReadOnly.getThisPage (p : Int) : ReadOnly (Index.getThisPage p : TreeM K RC) := by
  intro header s b header' s' h
  simp only [exec_getThisPage, Option.some.injEq, Prod.mk.injEq] at h
  exact ⟨h.1.2.symm, h.2.symm⟩

theorem ReadOnly.unpinPage (p : Int) : ReadOnly (Index.unpinPage p : TreeM K RC) := by
  intro header s b header' s' h
  simp only [exec_unpinPage, Option.some.injEq, Prod.mk.injEq] at h
  exact ⟨h.1.2.symm, h.2.symm⟩

theorem ReadOnly.page (p : Int) : ReadOnly (Index.page p : TreeM K (IndexPage K)) := by
  intro header s b header' s' h
  simp only [exec_page, Option.some.injEq, Prod.mk.injEq] at h
  exact ⟨h.1.2.symm, h.2.symm⟩

theorem ReadOnly.leafNode (p : Int) : ReadOnly (Index.leafNode p : TreeM K (LeafIndexNode K)) := by
  refine ReadOnly.bind (ReadOnly.page p) fun n => ?_
  cases n with
  | leaf l => exact ReadOnly.pure l
  | internal n => exact ReadOnly.fail
  | header h => exact ReadOnly.fail

theorem ReadOnly.internalNode (p : Int) :
    ReadOnly (Index.internalNode p : TreeM K (InternalIndexNode K)) := by
  refine ReadOnly.bind (ReadOnly.page p) fun n => ?_
  cases n with
  | leaf l => exact ReadOnly.fail
  | internal n => exact ReadOnly.pure n
  | header h => exact ReadOnly.fail

theorem ReadOnly.keyAt (p : Int) (index : ℕ) : ReadOnly (Index.keyAt p index : TreeM K K) := by
  refine ReadOnly.bind (ReadOnly.page p) fun n => ?_
  cases n.keyAt? index with
  | none => exact ReadOnly.fail
  | some k => exact ReadOnly.pure k

/-! ## The checks only read -/

section checks

variable (comparator : K → K → Int)

theorem readOnly_validateInParent (first : ℕ) (p : Int) :
    ReadOnly (validateInParent comparator first p) := by
  refine ReadOnly.bind (ReadOnly.page p) fun n => ReadOnly.ite (ReadOnly.pure _) ?_
  refine ReadOnly.bind (ReadOnly.getThisPage _) fun rc => ReadOnly.ite (ReadOnly.pure _) ?_
  refine ReadOnly.bind (ReadOnly.internalNode _) fun parent => ?_
  have hunpin : ∀ b : Bool, ReadOnly (do
      let _ ← Index.unpinPage n.parentPageNum
      Pure.pure b : TreeM K Bool) := fun b =>
    ReadOnly.bind (ReadOnly.unpinPage _) fun _ => ReadOnly.pure b
  split
  · exact hunpin false
  · have hlast : ∀ {P : Prop} [Decidable P] (i j : ℕ), ReadOnly (if P then do
        let key ← Index.keyAt p i
        let parentKey ← Index.keyAt n.parentPageNum j
        if comparator key parentKey ≥ 0 then do
          let _ ← Index.unpinPage n.parentPageNum
          Pure.pure false
        else do
          let _ ← Index.unpinPage n.parentPageNum
          Pure.pure true
      else do
        let _ ← Index.unpinPage n.parentPageNum
        Pure.pure true : TreeM K Bool) := fun i j =>
      ReadOnly.ite (ReadOnly.bind (ReadOnly.keyAt _ _) fun _ => ReadOnly.bind (ReadOnly.keyAt _ _)
        fun _ => ReadOnly.ite (hunpin false) (hunpin true)) (hunpin true)
    refine ReadOnly.ite ?_ (hlast _ _)
    refine ReadOnly.bind (ReadOnly.keyAt _ _) fun _ => ReadOnly.bind (ReadOnly.keyAt _ _) fun _ => ?_
    exact ReadOnly.ite (hunpin false) (hlast _ _)

theorem readOnly_validateLeaf (p : Int) : ReadOnly (validateLeaf comparator p) :=
  ReadOnly.bind (ReadOnly.leafNode p) fun _ => ReadOnly.ite (ReadOnly.pure _)
    (ReadOnly.ite (ReadOnly.pure _) (readOnly_validateInParent comparator 0 p))

theorem readOnly_validateChildren (p : Int) (items : List (K × Int)) :
    ReadOnly (validateChildren p items) := by
  induction items with
  | nil => exact ReadOnly.pure true
  | cons e items ih =>
      refine ReadOnly.ite ih (ReadOnly.bind (ReadOnly.getThisPage _) fun _ => ?_)
      refine ReadOnly.ite ih (ReadOnly.bind (ReadOnly.page _) fun _ => ?_)
      refine ReadOnly.bind (ReadOnly.unpinPage _) fun _ => ?_
      exact ReadOnly.ite (ReadOnly.pure _) ih

theorem readOnly_validateInternal (p : Int) : ReadOnly (validateInternal comparator p) := by
  refine ReadOnly.bind (ReadOnly.internalNode p) fun n => ReadOnly.ite (ReadOnly.pure _) ?_
  refine ReadOnly.ite (ReadOnly.pure _) ?_
  refine ReadOnly.bind (readOnly_validateChildren p n.items) fun _ => ?_
  exact ReadOnly.ite (ReadOnly.pure _) (readOnly_validateInParent comparator 1 p)

theorem readOnly_validateEach {f : Int → TreeM K Bool} (hf : ∀ p, ReadOnly (f p))
    (items : List (K × Int)) : ReadOnly (validateEach f items) := by
  induction items with
  | nil => exact ReadOnly.pure true
  | cons e items ih =>
      refine ReadOnly.bind (ReadOnly.getThisPage _) fun _ => ReadOnly.ite (ReadOnly.pure _) ?_
      exact ReadOnly.bind (hf _) fun _ => ReadOnly.ite (ReadOnly.pure _) ih

theorem readOnly_validateNodeRecursive (fuel : ℕ) (p : Int) :
    ReadOnly (validateNodeRecursive comparator fuel p) := by
  induction fuel generalizing p with
  | zero => exact ReadOnly.fail
  | succ fuel ih =>
      have hunpin : ∀ b : Bool, ReadOnly (do
          let _ ← Index.unpinPage p
          Pure.pure b : TreeM K Bool) := fun b =>
        ReadOnly.bind (ReadOnly.unpinPage _) fun _ => ReadOnly.pure b
      refine ReadOnly.bind (ReadOnly.page p) fun n => ReadOnly.ite ?_ ?_
      · exact ReadOnly.bind (readOnly_validateLeaf comparator p) hunpin
      · refine ReadOnly.bind (readOnly_validateInternal comparator p) fun _ => ?_
        refine ReadOnly.ite (hunpin false) (ReadOnly.bind (ReadOnly.internalNode p) fun n => ?_)
        exact ReadOnly.bind (readOnly_validateEach ih n.items) hunpin

end checks

/-! ## What they say -/

section meaning

variable {comparator : K → K → Int}

/-- The check of a page. -/
def validateNode (comparator : K → K → Int) (n : IndexPage K) (p : Int) : TreeM K Bool :=
  if n.isLeaf then validateLeaf comparator p else validateInternal comparator p

/-- A loop over checks that succeeds has checked all. -/
theorem validateEach_true {f : Int → TreeM K Bool} (hf : ∀ p, ReadOnly (f p))
    {items : List (K × Int)} (h : exec flat (validateEach f items) header s =
      some ((true, header), s)) : ∀ e ∈ items, exec flat (f e.2) header s =
        some ((true, header), s) := by
  induction items with
  | nil => simp
  | cons e items ih =>
      simp only [validateEach, exec_bind, exec_getThisPage, andThen_some, ne_eq, not_true_eq_false,
        if_false] at h
      obtain ⟨b, header', s', hb, h⟩ := andThen_eq_some.mp h
      obtain ⟨rfl, rfl⟩ := hf _ _ _ _ _ _ hb
      cases b with
      | false => simp at h
      | true =>
          simp only [Bool.not_true, Bool.false_eq_true, if_false] at h
          intro f hmem
          rcases List.mem_cons.mp hmem with rfl | hmem
          · exact hb
          · exact ih h f hmem

/-- A tree that has been validated has passed the check of every page. -/
theorem validateNodeRecursive_true (htree : IsTree s height p)
    (h : exec flat (validateNodeRecursive comparator fuel p) header s = some ((true, header), s)) :
    ∀ q ∈ pagesBelow s height p,
      exec flat (validateNode comparator (s.page q) q) header s = some ((true, header), s) := by
  induction fuel generalizing p height with
  | zero => simp [validateNodeRecursive] at h
  | succ fuel ih =>
      cases height with
      | zero => exact htree.elim
      | succ height =>
          rcases htree.cases with ⟨l, hp⟩ | ⟨n, hp⟩
          · intro q hq
            rw [pagesBelow_leaf hp, List.mem_singleton] at hq
            subst hq
            simp only [validateNodeRecursive, exec_bind, exec_page, andThen_some, hp,
              IndexPage.isLeaf, if_true] at h
            obtain ⟨b, header', s', hb, h⟩ := andThen_eq_some.mp h
            simp only [exec_unpinPage, andThen_some, exec_pure, Option.some.injEq,
              Prod.mk.injEq] at h
            obtain ⟨⟨rfl, rfl⟩, rfl⟩ := h
            rw [hp]
            exact hb
          · simp only [validateNodeRecursive, exec_bind, exec_page, andThen_some, hp,
              IndexPage.isLeaf, Bool.false_eq_true, if_false] at h
            obtain ⟨b, header', s', hb, h⟩ := andThen_eq_some.mp h
            obtain ⟨rfl, rfl⟩ := readOnly_validateInternal comparator p _ _ _ _ _ hb
            cases b with
            | false => simp at h
            | true =>
                simp only [Bool.not_true, Bool.false_eq_true, if_false, exec_bind,
                  exec_internalNode, hp, andThen_some] at h
                obtain ⟨b, header', s', heach, h⟩ := andThen_eq_some.mp h
                simp only [exec_unpinPage, andThen_some, exec_pure, Option.some.injEq,
                  Prod.mk.injEq] at h
                obtain ⟨⟨rfl, rfl⟩, rfl⟩ := h
                have hchildren :=
                  validateEach_true (readOnly_validateNodeRecursive comparator fuel) heach
                intro q hq
                rw [pagesBelow_internal hp, List.mem_cons, List.mem_flatMap] at hq
                rcases hq with rfl | ⟨e, he, hq⟩
                · rw [hp]
                  exact hb
                · exact ih (((isTree_internal hp).mp htree).2 e he) (hchildren e he) q hq

/-- What the check of a leaf says. -/
theorem validateLeaf_true {l : LeafIndexNode K} (hp : s.page p = .leaf l)
    (h : exec flat (validateLeaf comparator p) header s = some ((true, header), s)) :
    keysInOrder comparator (s.page p).keys = true ∧
      exec flat (validateInParent comparator 0 p) header s = some ((true, header), s) := by
  simp only [validateLeaf, exec_bind, exec_leafNode, hp, andThen_some, exec_ite, exec_pure] at h
  rw [hp]
  split at h
  · simp at h
  · split at h
    · simp at h
    · rename_i horder
      exact ⟨by simpa [IndexPage.keys] using horder, h⟩

/-- Every child is checked to name the page as its parent. -/
theorem validateChildren_true {items : List (K × Int)}
    (h : exec flat (validateChildren p items) header s = some ((true, header), s)) :
    ∀ e ∈ items, 0 ≤ e.2 → (s.page e.2).parentPageNum = p := by
  induction items with
  | nil => simp
  | cons e items ih =>
      simp only [validateChildren, exec_ite, exec_bind, exec_getThisPage, andThen_some, ne_eq,
        not_true_eq_false, if_false, exec_page, exec_unpinPage, exec_pure] at h
      intro f hf hnonneg
      split at h
      next hneg =>
        rcases List.mem_cons.mp hf with rfl | hf
        · omega
        · exact ih h f hf hnonneg
      next =>
        split at h
        next => simp at h
        next hparent =>
          rcases List.mem_cons.mp hf with rfl | hf
          · exact not_not.mp hparent
          · exact ih h f hf hnonneg

/-- What the check of an internal node says. -/
theorem validateInternal_true {n : InternalIndexNode K} (hp : s.page p = .internal n)
    (h : exec flat (validateInternal comparator p) header s = some ((true, header), s)) :
    keysInOrder comparator (s.page p).keys = true ∧
      (∀ e ∈ n.items, 0 ≤ e.2 → (s.page e.2).parentPageNum = p) ∧
      exec flat (validateInParent comparator 1 p) header s = some ((true, header), s) := by
  simp only [validateInternal, exec_bind, exec_internalNode, hp, andThen_some, exec_ite,
    exec_pure] at h
  rw [hp]
  split at h
  · simp at h
  · split at h
    · simp at h
    · rename_i horder
      obtain ⟨b, header', s', hb, h⟩ := andThen_eq_some.mp h
      obtain ⟨rfl, rfl⟩ := readOnly_validateChildren p n.items _ _ _ _ _ hb
      cases b with
      | false => simp at h
      | true =>
          simp only [Bool.not_true, Bool.false_eq_true, if_false] at h
          exact ⟨by simpa [IndexPage.keys] using horder, validateChildren_true hb, h⟩

/-- What the check of a node against its parent says. -/
theorem validateInParent_true {first i : ℕ} {n : InternalIndexNode K}
    (hparent : (s.page c).parentPageNum = p) (hnonneg : 0 ≤ p) (hp : s.page p = .internal n)
    (hindex : n.valueIndex c = some i)
    (h : exec flat (validateInParent comparator first c) header s = some ((true, header), s)) :
    (i ≠ 0 → ∃ k e, (s.page c).keyAt? first = some k ∧ n.items[i]? = some e ∧
      0 ≤ comparator k e.1) ∧
    ∀ f, n.items[i + 1]? = some f → ∃ k, (s.page c).keyAt? ((s.page c).size - 1) = some k ∧
      comparator k f.1 < 0 := by
  have hvalid : p ≠ bpInvalidPageNum := by
    rw [bpInvalidPageNum]
    omega
  have hkey : ∀ j, (IndexPage.internal n).keyAt? j = n.items[j]?.map Prod.fst := fun _ => rfl
  simp only [validateInParent, exec_bind, exec_page, andThen_some, hparent, hvalid, if_false,
    exec_getThisPage, ne_eq, not_true_eq_false, exec_internalNode, hp, hindex, exec_ite,
    exec_keyAt, exec_unpinPage, exec_pure, andThen_map, hkey] at h
  generalize hrest : (if i < n.items.length - 1 then
    ((s.page c).keyAt? ((s.page c).size - 1)).bind fun k => (n.items[i + 1]?.map Prod.fst).bind
      fun k' => if comparator k k' ≥ 0 then some ((false, header), s) else some ((true, header), s)
    else some ((true, header), s)) = rest at h
  have hboth : (i ≠ 0 → ∃ k e, (s.page c).keyAt? first = some k ∧ n.items[i]? = some e ∧
      0 ≤ comparator k e.1) ∧ rest = some ((true, header), s) := by
    by_cases hi : i = 0
    · rw [if_neg (not_not.mpr hi)] at h
      exact ⟨fun hne => absurd hi hne, h⟩
    · rw [if_pos hi] at h
      obtain ⟨k, hk, h⟩ := Option.bind_eq_some_iff.mp h
      obtain ⟨k', hk', h⟩ := Option.bind_eq_some_iff.mp h
      obtain ⟨e, he, rfl⟩ := Option.map_eq_some_iff.mp hk'
      split at h
      · simp at h
      · rename_i hcmp
        exact ⟨fun _ => ⟨k, e, hk, he, not_lt.mp hcmp⟩, h⟩
  refine ⟨hboth.1, fun f hf => ?_⟩
  have hlt : i < n.items.length - 1 := by
    have := (List.getElem?_eq_some_iff.mp hf).1
    omega
  rw [hboth.2, if_pos hlt, hf] at hrest
  obtain ⟨k, hk, hrest⟩ := Option.bind_eq_some_iff.mp hrest
  simp only [Option.map_some, Option.bind_some] at hrest
  split at hrest
  · simp at hrest
  · rename_i hcmp
    exact ⟨k, hk, not_le.mp hcmp⟩

end meaning

/-! ## From the checks to the order -/

section order

variable [LinearOrder K] {comparator : K → K → Int} {InTree : K → Prop}

theorem OrdersKeys.lt_of_neg (ho : OrdersKeys comparator InTree) {a b : K} (ha : InTree a)
    (hb : InTree b) (h : comparator a b < 0) : a < b := by
  by_contra hab
  rcases (not_lt.mp hab).lt_or_eq with hlt | heq
  · have := ho.pos a b ha hb hlt
    omega
  · subst heq
    rw [ho.zero b hb] at h
    exact absurd h (lt_irrefl 0)

theorem OrdersKeys.le_of_nonneg (ho : OrdersKeys comparator InTree) {a b : K} (ha : InTree a)
    (hb : InTree b) (h : 0 ≤ comparator a b) : b ≤ a := by
  by_contra hab
  have := ho.neg a b ha hb (not_le.mp hab)
  omega

/-- Keys that pass the loop are sorted. -/
theorem pairwise_of_keysInOrder (ho : OrdersKeys comparator InTree) {keys : List K}
    (hin : ∀ k ∈ keys, InTree k) (h : keysInOrder comparator keys = true) :
    keys.Pairwise (· < ·) := by
  induction keys with
  | nil => exact List.Pairwise.nil
  | cons a keys ih =>
      cases keys with
      | nil => simp
      | cons b keys =>
          simp only [keysInOrder, Bool.and_eq_true, decide_eq_true_eq] at h
          have hab := ho.lt_of_neg (hin a (by simp)) (hin b (by simp)) h.1
          have hrest := ih (fun k hk => hin k (List.mem_cons_of_mem _ hk)) h.2
          refine List.pairwise_cons.mpr ⟨fun k hk => ?_, hrest⟩
          rcases List.mem_cons.mp hk with rfl | hk
          · exact hab
          · exact hab.trans ((List.pairwise_cons.mp hrest).1 k hk)

omit [LinearOrder K] in
/-- The last key of a node is the one at its last slot. -/
theorem IndexPage.keyAt?_last {n : IndexPage K} {k : K} (h : k ∈ n.keys.getLast?) :
    n.keyAt? (n.size - 1) = some k := by
  cases n with
  | leaf l =>
      rw [keys, List.getLast?_map] at h
      rw [keyAt?, size, ← List.getLast?_eq_getElem?]
      exact h
  | internal n =>
      rw [keys, List.getLast?_map] at h
      obtain ⟨e, he, rfl⟩ := Option.mem_map.mp h
      rw [List.getLast?_drop] at he
      rw [keyAt?, size, ← List.getLast?_eq_getElem?]
      split at he
      · cases he
      · rw [he]
        rfl
  | header _ => cases h

/-- **Validated nodes are sorted and lie between the keys of their parents.** -/
theorem nodesChecked_of_valid (ho : OrdersKeys comparator InTree) (h : FiniteTree s height p)
    (hin : ∀ q ∈ pagesBelow s height p, ∀ k ∈ (s.page q).keys, InTree k)
    (hvalid : ∀ q ∈ pagesBelow s height p,
      exec flat (validateNode comparator (s.page q) q) header s = some ((true, header), s)) :
    NodesChecked s height p := by
  have hsorted : ∀ q ∈ pagesBelow s height p, keysInOrder comparator (s.page q).keys = true := by
    intro q hq
    have hcheck := hvalid q hq
    cases hpage : s.page q with
    | leaf l =>
        rw [hpage] at hcheck
        exact hpage ▸ (validateLeaf_true hpage hcheck).1
    | internal n =>
        rw [hpage] at hcheck
        exact hpage ▸ (validateInternal_true hpage hcheck).1
    | header _ => rfl
  -- what the check of a child against its parent says about its keys
  have hbounds : ∀ q ∈ pagesBelow s height p, ∀ n, s.page q = .internal n → ∀ i e,
      n.items[i]? = some e → (i ≠ 0 → ∃ k, k ∈ (s.page e.2).keys.head? ∧ 0 ≤ comparator k e.1) ∧
        ∀ f, n.items[i + 1]? = some f →
          ∃ k, (s.page e.2).keyAt? ((s.page e.2).size - 1) = some k ∧ comparator k f.1 < 0 := by
    intro q hq n hn i e he
    have hmem := List.mem_of_getElem? he
    obtain ⟨htree, hbelow, -⟩ := h.tree.child_of_mem hq hn hmem
    have hcheck := hvalid q hq
    rw [hn] at hcheck
    have hq0 := (h.of_mem hq).tree.nonneg
    have hparent := (validateInternal_true hn hcheck).2.1 e hmem htree.nonneg
    have hindex := (h.of_mem hq).valueIndex_eq hn he
    have hchild := hvalid e.2 hbelow
    have hslot : ∀ {e'}, n.items[i]? = some e' → e = e' := fun he' =>
      Option.some.inj (he.symm.trans he')
    cases hpage : s.page e.2 with
    | leaf l =>
        rw [hpage] at hchild
        obtain ⟨hfirst, hlast⟩ := validateInParent_true hparent hq0 hn hindex
          (validateLeaf_true hpage hchild).2
        rw [hpage] at hfirst hlast
        refine ⟨fun hi => ?_, hlast⟩
        obtain ⟨k, e', hk, he', hcmp⟩ := hfirst hi
        refine ⟨k, ?_, hslot he' ▸ hcmp⟩
        rwa [IndexPage.keys, List.head?_map, List.head?_eq_getElem?]
    | internal m =>
        rw [hpage] at hchild
        obtain ⟨hfirst, hlast⟩ := validateInParent_true hparent hq0 hn hindex
          (validateInternal_true hpage hchild).2.2
        rw [hpage] at hfirst hlast
        refine ⟨fun hi => ?_, hlast⟩
        obtain ⟨k, e', hk, he', hcmp⟩ := hfirst hi
        refine ⟨k, ?_, hslot he' ▸ hcmp⟩
        rwa [IndexPage.keys, List.head?_map, List.head?_eq_getElem?, List.getElem?_drop]
    | header _ =>
        rw [hpage] at hchild
        simp [validateNode, IndexPage.isLeaf, validateInternal, hpage] at hchild
  have hkey : ∀ q ∈ pagesBelow s height p, ∀ n, s.page q = .internal n → ∀ i e,
      n.items[i]? = some e → i ≠ 0 → InTree e.1 := by
    intro q hq n hn i e he hi
    exact hin q hq e.1 (mem_keys_internal hn he hi)
  refine ⟨fun q hq => pairwise_of_keysInOrder ho (hin q hq) (hsorted q hq),
    fun q hq n hn i e he hi k hk => ?_, fun q hq n hn i e f he hf k hk => ?_⟩
  · obtain ⟨-, hbelow, -⟩ := h.tree.child_of_mem hq hn (List.mem_of_getElem? he)
    obtain ⟨k', hk', hcmp⟩ := (hbounds q hq n hn i e he).1 hi
    obtain rfl : k = k' := Option.some.inj (hk.symm.trans hk')
    exact ho.le_of_nonneg (hin e.2 hbelow k (List.mem_of_mem_head? hk)) (hkey q hq n hn i e he hi)
      hcmp
  · obtain ⟨-, hbelow, -⟩ := h.tree.child_of_mem hq hn (List.mem_of_getElem? he)
    obtain ⟨k', hk', hcmp⟩ := (hbounds q hq n hn i e he).2 f hf
    rw [IndexPage.keyAt?_last hk, Option.some.injEq] at hk'
    subst hk'
    exact ho.lt_of_neg (hin e.2 hbelow k (List.mem_of_mem_getLast? hk))
      (hkey q hq n hn (i + 1) f hf (Nat.succ_ne_zero i)) hcmp

/-! ## Soundness -/

/-- What a valid tree is for: `find_leaf` leads to the leaf of every entry, `lookup` finds it there,
and following `next_brother` from the leftmost leaf visits every leaf once, in the order of the
keys. -/
structure TreeSound (comparator : K → K → Int) (fuel height : ℕ) (header : IndexFileHeader)
    (s : FlatPool (IndexPage K)) : Prop where
  /-- Entries are found where they are. -/
  find : ∀ q ∈ leafPages s height header.rootPage, ∀ l, s.page q = .leaf l → ∀ x ∈ l.items,
    exec flat (findLeaf comparator fuel x.1) header s = some (((.success, q), header), s) ∧
      (l.lookup comparator x.1).2 = true ∧ l.items[(l.lookup comparator x.1).1]? = some x
  /-- The links lead from leaf to leaf. -/
  link : ∃ q, exec flat (leftMostPage fuel) header s = some (((.success, q), header), s) ∧
    nextLeaves s ((leafPages s height header.rootPage).length + 1) q =
      leafPages s height header.rootPage
  /-- The leaves are in the order of the keys. -/
  order : (entriesBelow s height header.rootPage).Pairwise fun x y => x.1 < y.1

/-- A search in a sorted leaf finds what is there. -/
theorem lookup_of_mem (ho : OrdersKeys comparator InTree) {l : LeafIndexNode K}
    (hin : ∀ x ∈ l.items, InTree x.1) (hsorted : (l.items.map Prod.fst).Pairwise (· < ·))
    {x : K × RID} (hx : x ∈ l.items) :
    (l.lookup comparator x.1).2 = true ∧ l.items[(l.lookup comparator x.1).1]? = some x := by
  rw [List.pairwise_map] at hsorted
  have hplaces := hsorted.imp fun h => place_lt_place.mpr h
  rcases leaf_lookup ho.keyOrder (hin x hx) l hin hplaces with
    ⟨a, b, hab, ha, hb, -⟩ | ⟨a, y, b, hab, hy, ha, hb, hlookup⟩
  · rw [hab] at hx
    rcases List.mem_append.mp hx with hx | hx
    · exact absurd (ha x hx) (lt_irrefl _)
    · exact absurd (hb x hx) (lt_irrefl _)
  · rw [hab] at hx
    rcases List.mem_append.mp hx with hx | hx
    · exact absurd (ha x hx) (lt_irrefl _)
    · rcases List.mem_cons.mp hx with rfl | hx
      · rw [hlookup, hab]
        simp
      · exact absurd (hb x hx) (lt_irrefl _)

/-- **A tree that has been validated is sound if and only if its edges and its links are right.** -/
theorem validate_tree_sound_iff (ho : OrdersKeys comparator InTree)
    (h : FiniteTree s height header.rootPage)
    (hin : ∀ q ∈ pagesBelow s height header.rootPage, ∀ k ∈ (s.page q).keys, InTree k)
    (hfuel : height ≤ fuel)
    (hvalid : exec flat (validateTree comparator fuel) header s = some ((true, header), s)) :
    TreeSound comparator fuel height header s ↔ EdgesChecked s height header.rootPage ∧
      LinksNext s (leafPages s height header.rootPage) := by
  have hroot : header.rootPage ≠ bpInvalidPageNum := fun heq => by
    have := h.tree.nonneg
    rw [heq, bpInvalidPageNum] at this
    omega
  -- both halves of the validation have succeeded
  have hhalves : exec flat (validateNodeRecursive comparator fuel header.rootPage) header s =
      some ((true, header), s) ∧
      exec flat (validateLeafLink comparator fuel) header s = some ((true, header), s) := by
    simp only [validateTree, isEmpty, exec_bind, exec_get, exec_pure, andThen_some, hroot,
      decide_false, Bool.false_eq_true, if_false, exec_getThisPage, ne_eq,
        not_true_eq_false] at hvalid
    obtain ⟨b, header', s', hb, hvalid⟩ := andThen_eq_some.mp hvalid
    obtain ⟨rfl, rfl⟩ := readOnly_validateNodeRecursive comparator fuel _ _ _ _ _ _ hb
    cases b with
    | false => simp at hvalid
    | true => exact ⟨hb, by simpa using hvalid⟩
  obtain ⟨hnodes, hlink⟩ := hhalves
  have hchecked := nodesChecked_of_valid ho h hin (validateNodeRecursive_true h.tree hnodes)
  have hkeys : KeysInv InTree s height header.rootPage := by
    refine ⟨hin, fun q hq n hn => ?_⟩
    have := hchecked.sorted q hq
    rwa [hn] at this
  -- the leftmost leaf
  have hleft : ∃ q, exec flat (leftMostPage fuel) header s = some (((.success, q), header), s) ∧
      (leafPages s height header.rootPage).head? = some q := by
    simp only [validateLeafLink, isEmpty, exec_bind, exec_get, exec_pure, andThen_some, hroot,
      decide_false, Bool.false_eq_true, if_false] at hlink
    obtain ⟨⟨rc, q⟩, header', s', hfirst, -⟩ := andThen_eq_some.mp hlink
    have hexec := exec_findLeafInternal (s := s) hroot (fun _ => 0) fuel
    rw [leftMostPage, hexec] at hfirst
    obtain ⟨q', hq', heq⟩ := Option.map_eq_some_iff.mp hfirst
    refine ⟨q', ?_, ?_⟩
    · rw [leftMostPage, hexec, hq']
      rfl
    · rw [h.tree.descend_eq hfuel] at hq'
      exact head?_leafPages hq'
  have hfind : (∀ q ∈ leafPages s height header.rootPage, ∀ l, s.page q = .leaf l →
      ∀ x ∈ l.items, exec flat (findLeaf comparator fuel x.1) header s =
        some (((.success, q), header), s)) ↔ Separated s height header.rootPage := by
    rw [← descend_all_iff ho h hkeys]
    have hiff : ∀ (k : K) (q : Int), exec flat (findLeaf comparator fuel k) header s =
        some (((.success, q), header), s) ↔
        descendKey comparator s height k header.rootPage = some q := by
      intro k q
      rw [findLeaf, exec_findLeafInternal hroot, h.tree.descend_eq hfuel, Option.map_eq_some_iff]
      simp
    constructor
    · intro hall q hq x hx
      obtain ⟨l, hl⟩ := exists_leaf_of_mem hq
      rw [hl] at hx
      exact (hiff x.1 q).mp (hall q hq l hl x hx)
    · intro hall q hq l hl x hx
      refine (hiff x.1 q).mpr (hall q hq x ?_)
      rw [hl]
      exact hx
  have hlinks : (∃ q, exec flat (leftMostPage fuel) header s =
      some (((.success, q), header), s) ∧
      nextLeaves s ((leafPages s height header.rootPage).length + 1) q =
        leafPages s height header.rootPage) ↔
      LinksNext s (leafPages s height header.rootPage) := by
    obtain ⟨q, hexec, hhead⟩ := hleft
    obtain ⟨leaves, hleaves⟩ := List.head?_eq_some_iff.mp hhead
    have hnonneg : ∀ r ∈ q :: leaves, 0 ≤ r := fun r hr =>
      (h.of_mem (leafPages_subset s height _ (hleaves ▸ hr))).tree.nonneg
    rw [hleaves, ← nextLeaves_eq_iff hnonneg]
    constructor
    · rintro ⟨q', hexec', hnext⟩
      rw [hexec] at hexec'
      obtain rfl : q = q' := by simpa using hexec'
      exact hnext
    · exact fun hnext => ⟨q, hexec, hnext⟩
  rw [← separated_iff h.tree hchecked, ← hfind, ← hlinks]
  constructor
  · exact fun hsound => ⟨fun q hq l hl x hx => (hsound.find q hq l hl x hx).1, hsound.link⟩
  · rintro ⟨hall, hwalk⟩
    refine ⟨fun q hq l hl x hx => ⟨hall q hq l hl x hx, ?_⟩, hwalk,
      (hfind.mp hall).entries_sorted h.tree hchecked.sorted⟩
    have hqmem := leafPages_subset s height _ hq
    have hsorted := hchecked.sorted q hqmem
    rw [hl] at hsorted
    refine lookup_of_mem ho (fun y hy => ?_) hsorted hx
    refine hin q hqmem y.1 ?_
    rw [hl]
    exact List.mem_map_of_mem hy

end order

/-! ## Two trees -/

/-- A key of an `INTS` index. -/
def intKey (a : Int) : IndexKey Int := ⟨a, ⟨1, 0⟩⟩

/-- An entry of an `INTS` index. -/
def intEntry (a : Int) : IndexKey Int × RID := (intKey a, ⟨1, 0⟩)

/-- A root over two leaves. -/
def twoLeaves : FlatPool (IndexPage (IndexKey Int)) where
  page p :=
    if p = 2 then .internal ⟨-1, [(intKey 0, 3), (intKey 5, 4)]⟩
    else if p = 3 then .leaf ⟨2, -1, 4, [intEntry 1]⟩
    else .leaf ⟨2, 3, -1, [intEntry 5]⟩
  pageCount := 5
  bitmap p := p < 5

/-- The root has the key 10 beside its second child, page 4, and below the first child of this page
is the key 7. -/
def lostEntry : FlatPool (IndexPage (IndexKey Int)) where
  page p :=
    if p = 2 then .internal ⟨-1, [(intKey 0, 3), (intKey 10, 4)]⟩
    else if p = 3 then .internal ⟨2, [(intKey 0, 5), (intKey 5, 6)]⟩
    else if p = 4 then .internal ⟨2, [(intKey 0, 7), (intKey 15, 8)]⟩
    else if p = 5 then .leaf ⟨3, -1, 6, [intEntry 1]⟩
    else if p = 6 then .leaf ⟨3, 5, 7, [intEntry 5]⟩
    else if p = 7 then .leaf ⟨4, 6, 8, [intEntry 7]⟩
    else .leaf ⟨4, 7, -1, [intEntry 15]⟩
  pageCount := 9
  bitmap p := p < 9

/-- A tree of two leaves is sound. -/
theorem validate_tree_sound_run :
    TreeSound (keyComparator compareInt) 4 2 ⟨2, 6, 6⟩ twoLeaves := by
  have ho : OrdersKeys (keyComparator compareInt) fun k => k = intKey 1 ∨ k = intKey 5 := by
    refine compareInt_orders ?_ ?_
    · rintro a b (rfl | rfl) (rfl | rfl) <;> decide
    · rintro a (rfl | rfl) <;> decide
  -- the children of the root are leaves
  have hleaves : ∀ q ∈ pagesBelow twoLeaves 2 2, ∀ n, twoLeaves.page q = .internal n →
      ∀ e ∈ n.items, ∀ m, twoLeaves.page e.2 ≠ .internal m := by
    have hpages : pagesBelow twoLeaves 2 2 = [2, 3, 4] := rfl
    rw [hpages]
    simp only [twoLeaves, List.mem_cons, List.not_mem_nil, or_false]
    rintro q (rfl | rfl | rfl) n hn e he m hm
    · obtain rfl := IndexPage.internal.inj hn
      simp only [List.mem_cons, List.not_mem_nil, or_false] at he
      rcases he with rfl | rfl <;> cases hm
    · cases hn
    · cases hn
  refine (validate_tree_sound_iff ho ⟨by decide, by decide⟩ (by decide) (by decide) rfl).mpr
    ⟨⟨?_, ?_⟩, by decide⟩
  · exact fun q hq n hn i e he _ m hm => absurd hm (hleaves q hq n hn e (List.mem_of_getElem? he) m)
  · exact fun q hq n hn i e _ he _ m hm =>
      absurd hm (hleaves q hq n hn e (List.mem_of_getElem? he) m)

/-- A tree that has been validated where `find_leaf` leads the key of an entry to another leaf. -/
theorem validated_tree_loses_entry : FiniteTree lostEntry 3 2 ∧
    exec flat (validateTree (keyComparator compareInt) 6) ⟨2, 6, 6⟩ lostEntry =
      some ((true, ⟨2, 6, 6⟩), lostEntry) ∧
    ¬ TreeSound (keyComparator compareInt) 6 3 ⟨2, 6, 6⟩ lostEntry := by
  refine ⟨⟨by decide, by decide⟩, rfl, fun h => ?_⟩
  have hfind := (h.find 7 (by decide) _ rfl (intEntry 7) (by simp)).1
  have hlost : exec flat (findLeaf (keyComparator compareInt) 6 (intKey 7)) ⟨2, 6, 6⟩ lostEntry =
      some (((.success, 6), ⟨2, 6, 6⟩), lostEntry) := rfl
  simp [intEntry, hlost] at hfind

end Miniob.Storage.Index
