import Miniob.Storage.Index.Runs

/-!
# The tree validates itself

`validate_tree` checks every node against its keys, its children and its parent, and then the list
of leaves. On every file that represents an index it answers `true` (`validateTree_ok`).

The checks of a leaf and of an internal node against the parent are the same except for the first
key they compare, because the first key of an internal node is not used.
-/

namespace Miniob.Storage.Index

open Miniob.Lib
open Miniob.Storage.BufferPool (FlatPool flat)

variable {K : Type}

/-! ## The checks -/

/-- A root is not empty, and an internal root has two children.
Source: `bplus_tree.cpp`, `IndexNodeHandler::validate` -/
def IndexPage.validate (n : IndexPage K) : Bool :=
  if n.parentPageNum = bpInvalidPageNum then
    if n.size < 1 then false else n.isLeaf || !(n.size < 2)
  else true

/-- The loop over neighbouring keys. -/
def keysInOrder (comparator : K → K → Int) : List K → Bool
  | a :: b :: keys => comparator a b < 0 && keysInOrder comparator (b :: keys)
  | _ => true

/-- The second half of the `validate` functions of leaves and of internal nodes: the keys lie
between the two keys of the parent. `first` is the index of the first key that is used. -/
def validateInParent (comparator : K → K → Int) (first : ℕ) (frame : Int) : TreeM K Bool := do
  let n ← page frame
  let parentPageNum := n.parentPageNum
  if parentPageNum = bpInvalidPageNum then
    return true
  let rc ← getThisPage parentPageNum
  if rc ≠ .success then
    return false
  let parentNode ← internalNode parentPageNum
  match parentNode.valueIndex frame with
  | none =>
    let _ ← unpinPage parentPageNum
    return false
  | some indexInParent =>
    if indexInParent ≠ 0 then
      let key ← keyAt frame first
      let parentKey ← keyAt parentPageNum indexInParent
      if comparator key parentKey < 0 then
        let _ ← unpinPage parentPageNum
        return false
    if indexInParent < parentNode.items.length - 1 then
      let key ← keyAt frame (n.size - 1)
      let parentKey ← keyAt parentPageNum (indexInParent + 1)
      if comparator key parentKey ≥ 0 then
        let _ ← unpinPage parentPageNum
        return false
    let _ ← unpinPage parentPageNum
    return true

/-- Source: `bplus_tree.cpp`, `LeafIndexNodeHandler::validate` -/
def validateLeaf (comparator : K → K → Int) (frame : Int) : TreeM K Bool := do
  let n ← leafNode frame
  if !(IndexPage.leaf n).validate then
    return false
  if !keysInOrder comparator (n.items.map Prod.fst) then
    return false
  validateInParent comparator 0 frame

/-- The loop over the children: each must name the node as its parent. A child that cannot be
fetched is only logged. -/
def validateChildren (frame : Int) : List (K × Int) → TreeM K Bool
  | [] => pure true
  | (_, pageNum) :: items => do
    if pageNum < 0 then
      validateChildren frame items
    else
      let rc ← getThisPage pageNum
      if rc ≠ .success then
        validateChildren frame items
      else
        let childNode ← page pageNum
        let _ ← unpinPage pageNum
        if childNode.parentPageNum ≠ frame then
          return false
        validateChildren frame items

/-- Source: `bplus_tree.cpp`, `InternalIndexNodeHandler::validate` -/
def validateInternal (comparator : K → K → Int) (frame : Int) : TreeM K Bool := do
  let n ← internalNode frame
  if !(IndexPage.internal n).validate then
    return false
  if !keysInOrder comparator ((n.items.drop 1).map Prod.fst) then
    return false
  let result ← validateChildren frame n.items
  if !result then
    return false
  validateInParent comparator 1 frame

/-- The loop of `validate_node_recursive` over the children of an internal node. -/
def validateEach (validateNodeRecursive : Int → TreeM K Bool) : List (K × Int) → TreeM K Bool
  | [] => pure true
  | (_, pageNum) :: items => do
    let rc ← getThisPage pageNum
    if rc ≠ .success then
      return false
    let result ← validateNodeRecursive pageNum
    if !result then
      return false
    validateEach validateNodeRecursive items

/-- Source: `bplus_tree.cpp`, `BplusTreeHandler::validate_node_recursive` -/
def validateNodeRecursive (comparator : K → K → Int) : ℕ → Int → TreeM K Bool
  | 0, _ => TreeM.fail
  | fuel + 1, frame => do
    let n ← page frame
    if n.isLeaf then
      let result ← validateLeaf comparator frame
      let _ ← unpinPage frame
      return result
    else
      let result ← validateInternal comparator frame
      if !result then
        let _ ← unpinPage frame
        return false
      let internalNode ← internalNode frame
      let result ← validateEach (validateNodeRecursive comparator fuel) internalNode.items
      let _ ← unpinPage frame
      return result

/-- The loop of `validate_leaf_link` over the leaves after the first. -/
def validateLeafLinkLoop (comparator : K → K → Int) : ℕ → Int → K → Int → TreeM K Bool
  | 0, _, _, _ => TreeM.fail
  | fuel + 1, prevPageNum, prevKey, nextPageNum => do
    if nextPageNum = bpInvalidPageNum then
      return true
    let rc ← getThisPage nextPageNum
    if rc ≠ .success then
      return false
    let n ← leafNode nextPageNum
    let firstKey ← keyAt nextPageNum 0
    let lastKey ← keyAt nextPageNum (n.items.length - 1)
    let _ ← unpinPage nextPageNum
    if n.prevBrother ≠ prevPageNum ∨ comparator prevKey firstKey ≥ 0 then
      return false
    validateLeafLinkLoop comparator fuel nextPageNum lastKey n.nextBrother

/-- Source: `bplus_tree.cpp`, `BplusTreeHandler::validate_leaf_link` -/
def validateLeafLink (comparator : K → K → Int) (fuel : ℕ) : TreeM K Bool := do
  if ← isEmpty then
    return true
  let (rc, frame) ← leftMostPage fuel
  if rc ≠ .success then
    return false
  let n ← leafNode frame
  if n.prevBrother ≠ bpInvalidPageNum then
    return false
  let lastKey ← keyAt frame (n.items.length - 1)
  let _ ← unpinPage frame
  validateLeafLinkLoop comparator fuel frame lastKey n.nextBrother

/-- A root page that cannot be fetched counts as valid: the source returns the code itself, which
converts to `true`.
Source: `bplus_tree.cpp`, `BplusTreeHandler::validate_tree` -/
def validateTree (comparator : K → K → Int) (fuel : ℕ) : TreeM K Bool := do
  if ← isEmpty then
    return true
  let rootPage := (← get).rootPage
  let rc ← getThisPage rootPage
  if rc ≠ .success then
    return true
  let result ← validateNodeRecursive comparator fuel rootPage
  if !result then
    return false
  validateLeafLink comparator fuel

/-! ## They succeed -/

section validate

variable {B : Type} [LinearOrder B] [BoundedOrder B] {comparator : K → K → Int} {InTree : K → Prop}
  {pos : K → B} {header : IndexFileHeader} {s : FlatPool (IndexPage K)} {g : Ghost B} {p : Int}
  {fuel : ℕ}

/-- A key that is not below another does not compare negative. -/
theorem KeyOrder.nonneg (ho : KeyOrder comparator InTree pos) {a b : K} (ha : InTree a)
    (hb : InTree b) (hab : pos b ≤ pos a) : 0 ≤ comparator a b := by
  rcases hab.lt_or_eq with hlt | heq
  · exact (ho.pos a b ha hb hlt).le
  · exact (ho.zero a b ha hb heq.symm).ge

/-- Sorted keys pass the loop. -/
theorem keysInOrder_ok (ho : KeyOrder comparator InTree pos) (keys : List K)
    (hin : ∀ k ∈ keys, InTree k) (hsorted : keys.Pairwise fun a b => pos a < pos b) :
    keysInOrder comparator keys = true := by
  induction keys with
  | nil => rfl
  | cons a keys ih =>
      cases keys with
      | nil => rfl
      | cons b keys =>
          rw [List.pairwise_cons] at hsorted
          have hab := ho.neg a b (hin a (by simp)) (hin b (by simp)) (hsorted.1 b (by simp))
          unfold keysInOrder
          rw [ih (fun k hk => hin k (by simp [hk])) hsorted.2]
          simp [hab]

/-- Without a short node, any node may be called short. -/
theorem IndexInv.weaken (h : IndexInv InTree pos header s g none none) (p : Int) :
    IndexInv InTree pos header s g none (some p) := by
  refine ⟨h.tree, ⟨h.sizes.leaf_max, h.sizes.internal_max, h.sizes.le_max, ?_, ?_⟩, h.store⟩
  · intro x hx hxr
    exact (h.sizes.ge_half x hx hxr).trans (Nat.le_add_right _ _)
  · exact h.sizes.ge_root.trans (Nat.le_add_right _ _)

/-- The keys of a node lie between the keys of its parent. -/
theorem validateInParent_ok (ho : KeyOrder comparator InTree pos)
    (h : IndexInv InTree pos header s g none none) (hp : p ∈ g.nodes) (first : ℕ)
    (hfirst : p ≠ header.rootPage →
      ∃ key, (s.page p).keyAt? first = some key ∧ InTree key ∧ g.lo p ≤ pos key) :
    exec flat (validateInParent comparator first p) header s = some ((true, header), s) := by
  by_cases hroot : p = header.rootPage
  · have hpar : (s.page p).parentPageNum = bpInvalidPageNum := hroot ▸ h.tree.root_parent
    simp [validateInParent, hpar]
  · obtain ⟨first, hfirst, hfin, hflo⟩ := hfirst hroot
    obtain ⟨last, hlast, hlin, hllo, hlhi⟩ := (h.weaken p).last_key hp hroot
    obtain ⟨P, N, l₁, kp, l₂, hpar, hP, hP₀, hN, hitems, hlevel, -⟩ :=
      h.exists_parent ho hp hroot hlin hllo hlhi
    have hC : (view s).children P = l₁ ++ (kp, p) :: l₂ := by
      simp [view, hN, IndexPage.children, hitems]
    have hcells := h.tree.cells P hP (by omega)
    have hnodup := h.tree.nodup_children hP
    rw [hC, List.map_append, List.map_cons] at hcells hnodup
    have hindex : N.valueIndex p = some l₁.length := by
      unfold InternalIndexNode.valueIndex
      rw [hitems, List.findIdx?_append]
      have hnone : l₁.findIdx? (fun e => decide (p = e.2)) = none := by
        rw [List.findIdx?_eq_none_iff]
        intro e he
        rw [decide_eq_false_iff_not]
        intro heq
        rw [List.nodup_append] at hnodup
        exact hnodup.2.2 p (heq ▸ List.mem_map_of_mem he) p (by simp) rfl
      simp [hnone, List.findIdx?_cons]
    have hbelow : l₁.length ≠ 0 → ∃ k, (IndexPage.internal N).keyAt? l₁.length = some k ∧
        ¬ comparator first k < 0 := by
      intro hne
      have hne' : l₁ ≠ [] := fun hnil => hne (by rw [hnil]; rfl)
      obtain ⟨hin, hpos⟩ := h.tree.key_eq hP (e := (kp, p)) (by
        rw [hC, List.tail_append_of_ne_nil hne']
        simp)
      refine ⟨kp, by simp [IndexPage.keyAt?, hitems], not_lt.mpr (ho.nonneg hfin hin ?_)⟩
      rw [hpos]
      exact hflo
    have habove : l₁.length < N.items.length - 1 → ∃ k,
        (IndexPage.internal N).keyAt? (l₁.length + 1) = some k ∧ ¬ comparator last k ≥ 0 := by
      intro hlt
      cases l₂ with
      | nil =>
          rw [hitems] at hlt
          simp at hlt
      | cons e l₂ =>
          obtain ⟨hin, hpos⟩ := h.tree.key_eq hP (e := e) (by
            rw [hC]
            cases l₁ <;> simp)
          refine ⟨e.1, ?_, not_le.mpr (ho.neg last e.1 hlin hin ?_)⟩
          · rw [IndexPage.keyAt?, hitems, List.getElem?_append_right (by omega)]
            simp
          · rw [hpos]
            exact hlhi.trans_le (cells_after hcells (by simp))
    by_cases h₁ : l₁.length = 0
    · by_cases h₂ : l₁.length < N.items.length - 1
      · obtain ⟨k, hk, hcmp⟩ := habove h₂
        rw [h₁] at h₂ hk hindex
        simp [validateInParent, hpar, hP₀, hN, hindex, h₂, hlast, hk, hcmp]
      · rw [h₁] at h₂ hindex
        simp [validateInParent, hpar, hP₀, hN, hindex, h₂]
    · obtain ⟨k, hk, hcmp⟩ := hbelow h₁
      by_cases h₂ : l₁.length < N.items.length - 1
      · obtain ⟨k', hk', hcmp'⟩ := habove h₂
        simp [validateInParent, hpar, hP₀, hN, hindex, h₁, h₂, hlast, hfirst, hk, hcmp,
          hk', hcmp']
      · simp [validateInParent, hpar, hP₀, hN, hindex, h₁, h₂, hfirst, hk, hcmp]

/-- A node without parent is the root, and the root is large enough. -/
theorem IndexInv.validate_page (h : IndexInv InTree pos header s g none none) (hp : p ∈ g.nodes) :
    (s.page p).validate = true := by
  unfold IndexPage.validate
  by_cases hpar : (s.page p).parentPageNum = bpInvalidPageNum
  · have hroot : p = header.rootPage := by
      by_contra hne
      have hmem : (s.page p).parentPageNum ∈ g.nodes := (h.tree.up p hp hne (by simp)).1
      have := h.tree.nonneg _ hmem
      rw [hpar, bpInvalidPageNum] at this
      omega
    have hsize := h.sizes.ge_root
    rw [← hroot] at hsize
    simp only [reduceCtorEq, if_false, Nat.add_zero] at hsize
    rw [if_pos hpar, IndexPage.size_eq]
    change _ ≤ (s.page p).children.length + (s.page p).entries.length at hsize
    by_cases hl : g.level p = 0
    · obtain ⟨n, hn, -⟩ := h.exists_leaf hp hl
      rw [if_pos hl] at hsize
      rw [if_neg (by omega), hn]
      rfl
    · rw [if_neg hl] at hsize
      rw [if_neg (by omega)]
      simp only [Bool.or_eq_true, Bool.not_eq_true', decide_eq_false_iff_not]
      exact Or.inr (by omega)
  · rw [if_neg hpar]

/-- A leaf passes its check. -/
theorem validateLeaf_ok (ho : KeyOrder comparator InTree pos)
    (h : IndexInv InTree pos header s g none none) (hp : p ∈ g.nodes) (hl : g.level p = 0) :
    exec flat (validateLeaf comparator p) header s = some ((true, header), s) := by
  obtain ⟨n, hn, hE, -, hs⟩ := h.exists_leaf hp hl
  have hpage := h.validate_page hp
  rw [hn] at hpage
  have horder : keysInOrder comparator (n.items.map Prod.fst) = true := by
    refine keysInOrder_ok ho _ (fun k hk => ?_) ?_
    · obtain ⟨e, he, rfl⟩ := List.mem_map.mp hk
      exact (h.tree.entry p hp e (hE ▸ he)).1
    · rw [List.pairwise_map, ← hE]
      exact h.tree.sorted p hp
  have hparent := validateInParent_ok ho h hp 0 (fun hroot => by
    have hhalf := h.sizes.ge_half p hp hroot
    have hfour := h.sizes.four_le (g.level p)
    rw [hs] at hhalf
    cases hitems : n.items with
    | nil =>
        rw [hitems] at hhalf
        simp only [reduceCtorEq, if_false, List.length_nil] at hhalf
        omega
    | cons e E =>
        obtain ⟨hin, hlo, -⟩ := h.tree.entry p hp e (by simp [hE, hitems])
        exact ⟨e.1, by simp [hn, IndexPage.keyAt?, hitems], hin, hlo⟩)
  simp [validateLeaf, hn, hpage, horder, hparent]

/-- The children of a node name it as their parent. -/
theorem validateChildren_ok (items : List (K × Int))
    (hitems : ∀ e ∈ items, (s.page e.2).parentPageNum = p) :
    exec flat (validateChildren p items) header s = some ((true, header), s) := by
  induction items with
  | nil => rfl
  | cons e items ih =>
      have hrest := ih fun f hf => hitems f (by simp [hf])
      have he := hitems e (by simp)
      by_cases hneg : e.2 < 0
      · simp [validateChildren, hneg, hrest]
      · simp [validateChildren, hneg, he, hrest]

/-- An internal node passes its check. -/
theorem validateInternal_ok (ho : KeyOrder comparator InTree pos)
    (h : IndexInv InTree pos header s g none none) (hp : p ∈ g.nodes) (hl : g.level p ≠ 0) :
    exec flat (validateInternal comparator p) header s = some ((true, header), s) := by
  obtain ⟨n, hn, hC, -, hs⟩ := h.exists_internal hp hl
  have hpage := h.validate_page hp
  rw [hn] at hpage
  have hkey : ∀ e ∈ n.items.drop 1, InTree e.1 ∧ pos e.1 = g.lo e.2 := by
    intro e he
    refine h.tree.key_eq hp ?_
    rw [hC, ← List.drop_one]
    exact he
  have horder : keysInOrder comparator ((n.items.drop 1).map Prod.fst) = true := by
    refine keysInOrder_ok ho _ (fun k hk => ?_) ?_
    · obtain ⟨e, he, rfl⟩ := List.mem_map.mp hk
      exact (hkey e he).1
    · have hcells := cells_pairwise (h.tree.cells p hp hl)
      rw [hC, List.pairwise_map] at hcells
      rw [List.pairwise_map]
      refine (hcells.sublist (List.drop_sublist 1 _)).imp_of_mem fun {a b} ha hb hlt => ?_
      rwa [(hkey a ha).2, (hkey b hb).2]
  have hchildren : exec flat (validateChildren p n.items) header s = some ((true, header), s) :=
    validateChildren_ok n.items fun e he => (h.tree.child p hp e (hC.symm ▸ he)).2.2.1
  have hparent := validateInParent_ok ho h hp 1 (fun hroot => by
    have hhalf := h.sizes.ge_half p hp hroot
    have hfour := (h.sizes.four_le (g.level p)).2 hl
    rw [hs] at hhalf
    rcases hitems : n.items with _ | ⟨a, _ | ⟨e, C⟩⟩
    · rw [hitems] at hhalf
      simp at hhalf
      omega
    · rw [hitems] at hhalf
      simp at hhalf
      omega
    · obtain ⟨hin, hpos⟩ := hkey e (by simp [hitems])
      have hcells := cells_mem (h.tree.cells p hp hl) (c := e.2) (by simp [hC, hitems])
      exact ⟨e.1, by simp [hn, IndexPage.keyAt?, hitems], hin, hpos ▸ hcells.1⟩)
  rw [List.drop_one, List.map_tail] at horder
  simp [validateInternal, hn, hpage, horder, hchildren, hparent]

/-- The loop over children that all pass. -/
theorem validateEach_ok {validate : Int → TreeM K Bool} (items : List (K × Int))
    (hitems : ∀ e ∈ items, exec flat (validate e.2) header s = some ((true, header), s)) :
    exec flat (validateEach validate items) header s = some ((true, header), s) := by
  induction items with
  | nil => rfl
  | cons e items ih =>
      have hrest := ih fun f hf => hitems f (by simp [hf])
      have he := hitems e (by simp)
      simp [validateEach, he, hrest]

/-- Every node passes its check. By induction on its level. -/
theorem validateNodeRecursive_ok (ho : KeyOrder comparator InTree pos)
    (h : IndexInv InTree pos header s g none none) (fuel : ℕ) (hp : p ∈ g.nodes)
    (hfuel : g.level p < fuel) :
    exec flat (validateNodeRecursive comparator fuel p) header s = some ((true, header), s) := by
  induction fuel generalizing p with
  | zero => omega
  | succ fuel ih =>
      by_cases hl : g.level p = 0
      · obtain ⟨n, hn, -⟩ := h.exists_leaf hp hl
        simp [validateNodeRecursive, hn, IndexPage.isLeaf, validateLeaf_ok ho h hp hl]
      · obtain ⟨n, hn, hC, -⟩ := h.exists_internal hp hl
        have heach : exec flat (validateEach (validateNodeRecursive comparator fuel) n.items)
            header s = some ((true, header), s) := by
          refine validateEach_ok n.items fun e he => ?_
          obtain ⟨hmem, hlevel, -⟩ := h.tree.child p hp e (hC.symm ▸ he)
          exact ih hmem (by omega)
        simp [validateNodeRecursive, hn, IndexPage.isLeaf, validateInternal_ok ho h hp hl, heach]

end validate

section link

variable [LinearOrder K] {comparator : K → K → Int} {InTree : K → Prop} {header : IndexFileHeader}
  {s : FlatPool (IndexPage K)} {g : Ghost (WithBot (WithTop K))} {C : SortedSet K} {height : ℕ}

/-- The first and the last key of a leaf. -/
theorem IndexInv.leaf_ends (h : IndexInv InTree place header s g none none) {q : Int}
    (hq : q ∈ g.nodes) (hl : g.level q = 0) :
    ∃ n first last, s.page q = .leaf n ∧ (s.page q).keyAt? 0 = some first ∧
      (s.page q).keyAt? (n.items.length - 1) = some last ∧
      (InTree first ∧ g.lo q ≤ place first) ∧ InTree last ∧ place last < g.hi q := by
  obtain ⟨n, hn, hE, -, -⟩ := h.exists_leaf hq hl
  have hne := h.entries_ne_nil hq hl
  rw [hE] at hne
  obtain ⟨E, e, hitems⟩ := (List.eq_nil_or_concat' n.items).resolve_left hne
  obtain ⟨f, F, hitems'⟩ := List.exists_cons_of_ne_nil hne
  obtain ⟨hin, -, hhi⟩ := h.tree.entry q hq e (by simp [hE, hitems])
  obtain ⟨hin', hlo, -⟩ := h.tree.entry q hq f (by simp [hE, hitems'])
  refine ⟨n, f.1, e.1, hn, ?_, ?_, ⟨hin', hlo⟩, hin, hhi⟩
  · simp [hn, IndexPage.keyAt?, hitems']
  · simp [hn, IndexPage.keyAt?, hitems]

/-- The leaves after a leaf pass the check of the links. By induction on the number of entries in
them. -/
theorem validateLeafLinkLoop_ok (ho : OrdersKeys comparator InTree)
    (h : IndexInv InTree place header s g none none)
    (hC : ∀ e, e ∈ C.entries ↔ Holds (view s) g e) (fuel : ℕ) {q : Int} {n : LeafIndexNode K}
    {last : K} (hq : q ∈ g.nodes) (hl : g.level q = 0) (hn : s.page q = .leaf n)
    (hlast : InTree last) (hhi : place last < g.hi q)
    (hfuel : (C.entries.filter fun e => g.hi q ≤ place e.1).length < fuel) :
    exec flat (validateLeafLinkLoop comparator fuel q last n.nextBrother) header s =
      some ((true, header), s) := by
  induction fuel generalizing q n last with
  | zero => omega
  | succ fuel ih =>
      have hnext := h.tree.next q hq hl
      simp only [view, hn, IndexPage.next] at hnext
      rcases hnext with ⟨-, hend⟩ | ⟨hmem, hl', hlo, hprev⟩
      · simp [validateLeafLinkLoop, hend]
      · have hvalid : n.nextBrother ≠ bpInvalidPageNum := by
          intro heq
          have := h.tree.nonneg _ hmem
          rw [heq, bpInvalidPageNum] at this
          omega
        obtain ⟨m, first, last', hm, hfirst, hlast', ⟨hfin, hflo⟩, hlin, hlhi⟩ :=
          h.leaf_ends hmem hl'
        rw [hm, IndexPage.prev] at hprev
        have hcmp : comparator last first < 0 := by
          apply ho.neg last first hlast hfin
          rw [← place_lt_place]
          exact hhi.trans_le (hlo ▸ hflo)
        have hcut := C.filter_append (h.tree.lo_lt_hi _ hmem).le
        have hne := h.entries_ne_nil hmem hl'
        rw [← h.tree.entries_eq hC hmem hl'] at hcut
        have hlen := congrArg List.length hcut
        have hpos := List.length_pos_of_ne_nil hne
        rw [List.length_append, hlo] at hlen
        have hrec := ih hmem hl' hm hlin hlhi (by omega)
        rw [hm] at hfirst hlast'
        simp [validateLeafLinkLoop, hvalid, hm, hfirst, hlast', hprev, not_le.mpr hcmp, hrec]

/-- **`validate_tree` returns true.** -/
theorem validateTree_ok (ho : OrdersKeys comparator InTree)
    (h : RepresentsSet InTree header s height C) (fuel : ℕ) (hfuel : height ≤ fuel)
    (hlength : C.entries.length ≤ fuel) :
    exec flat (validateTree comparator fuel) header s = some ((true, header), s) := by
  rcases h with ⟨hempty, -⟩ | ⟨g, hinv, hC, hlt⟩
  · simp [validateTree, isEmpty, hempty.root]
  · have hnodes := validateNodeRecursive_ok ho.keyOrder hinv fuel hinv.tree.root_mem (by omega)
    obtain ⟨q, hq, hl, hlo, hexec⟩ := leftMostPage_ok hinv.tree.toNodeInv fuel (by omega)
    obtain ⟨n, first, last, hn, -, hlast, -, hlin, hlhi⟩ := hinv.leaf_ends hq hl
    have hprev : n.prevBrother = bpInvalidPageNum := by
      have hp := hinv.tree.prev q hq hl
      simp only [view, hn, IndexPage.prev] at hp
      rcases hp with ⟨-, hend⟩ | ⟨hmem, -, hhi, -⟩
      · exact hend
      · have hlt := hinv.tree.lo_lt_hi _ hmem
        rw [hhi, hlo] at hlt
        exact absurd hlt not_lt_bot
    have hcount : (C.entries.filter fun e => g.hi q ≤ place e.1).length < fuel := by
      have hcut := C.filter_append (hinv.tree.lo_lt_hi q hq).le
      rw [← hinv.tree.entries_eq hC hq hl] at hcut
      have hlen := congrArg List.length hcut
      have hpos := List.length_pos_of_ne_nil (hinv.entries_ne_nil hq hl)
      have hle := List.length_filter_le (fun e => decide (g.lo q ≤ place e.1)) C.entries
      rw [List.length_append] at hlen
      omega
    have hlink := validateLeafLinkLoop_ok ho hinv hC fuel hq hl hn hlin hlhi hcount
    rw [hn] at hlast
    simp [validateTree, validateLeafLink, isEmpty, hinv.tree.root_ne_invalid, hnodes, hexec, hn, hprev,
      hlast, hlink]

end link

end Miniob.Storage.Index
