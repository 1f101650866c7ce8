import Miniob.Storage.Index.Find

/-!
# Refilling a node keeps the invariant

`coalesce_or_redistribute` is called on a node that has lost an item. Such a node may be *short*
(see `SizeInv`): one item below half full, or a root that is empty or has one child.

* `redistribute` moves one item over from a neighbour with items to spare.
* `coalesce` merges the node with a neighbour that has none; the parent loses an item and is the
  short node of the recursive call.
* `adjust_root` drops a root with one child, or the last, empty leaf.

`coalesceOrRedistribute_ok` puts the three together by induction on the distance to the root.
-/

namespace Miniob.Storage.Index

open Miniob.Lib
open Miniob.Storage.BufferPool (FlatPool flat)

variable {K B : Type} [LinearOrder B] [BoundedOrder B] {comparator : K → K → Int}
  {InTree : K → Prop} {pos : K → B} {header : IndexFileHeader} {s s' : FlatPool (IndexPage K)}
  {g : Ghost B} {p q P l r : Int} {N : InternalIndexNode K} {l₁ l₂ : List (K × Int)} {kl kr : K}

/-! ## What the steps do to the pages -/

section steps

omit [LinearOrder B] [BoundedOrder B]

/-- A single child with a new parent. -/
theorem reparent_singleton (c : Int) :
    reparent s P [c] = s.set c ((s.page c).setParentPageNum P) := by
  simp only [reparent, FlatPool.set, List.mem_singleton]
  congr 1
  funext x
  by_cases hx : x = c <;> simp [hx]

/-- The key of the item at a cut is replaced. -/
theorem setKeyAt_append (l₁ l₂ : List (K × Int)) (parent c : Int) (k k' : K) :
    InternalIndexNode.setKeyAt ⟨parent, l₁ ++ (k, c) :: l₂⟩ l₁.length k' =
      ⟨parent, l₁ ++ (k', c) :: l₂⟩ := by
  simp only [InternalIndexNode.setKeyAt, InternalIndexNode.mk.injEq, true_and]
  induction l₁ with
  | nil => rfl
  | cons a l₁ ih => simp [ih]

variable (hl : l ≠ P) (hr : r ≠ P) (hlr : l ≠ r) (hP : s.page P = .internal N)
include hl hr hlr hP

/-- The first entry of the right leaf moves to the left one. -/
theorem exec_redistribute_leaf_right {L R : LeafIndexNode K} {e e' : K × RID} {E : List (K × RID)}
    (hL : s.page l = .leaf L) (hR : s.page r = .leaf R) (hitems : R.items = e :: e' :: E)
    (hN : 1 < N.items.length) :
    exec flat (redistribute .leaf r l P 0) header s = some ((.success, header),
      ((s.set l (.leaf { L with items := L.items ++ [e] })).set r
        (.leaf { R with items := e' :: E })).set P (.internal (N.setKeyAt 1 e'.1))) := by
  simp [redistribute, moveFirstToEnd, hL, hR, hP, hitems, hl.symm, hr.symm, hlr.symm,
    IndexPage.keyAt?, exec_assert, hN]

/-- The last entry of the left leaf moves to the right one. -/
theorem exec_redistribute_leaf_left {L R : LeafIndexNode K} {e : K × RID} {E : List (K × RID)}
    {index : ℕ} (hL : s.page l = .leaf L) (hR : s.page r = .leaf R) (hitems : L.items = E ++ [e])
    (hindex : index ≠ 0) (hN : index < N.items.length) :
    exec flat (redistribute .leaf l r P index) header s = some ((.success, header),
      ((s.set r (.leaf { R with items := e :: R.items })).set l
        (.leaf { L with items := E })).set P (.internal (N.setKeyAt index e.1))) := by
  simp [redistribute, moveLastToFront, hL, hR, hP, hitems, hlr, hl.symm, hr.symm, hlr.symm,
    IndexPage.keyAt?, exec_assert, hN, hindex]

/-- The first child of the right node moves to the left one. -/
theorem exec_redistribute_internal_right {L R : InternalIndexNode K} {e e' : K × Int}
    {C : List (K × Int)} (hL : s.page l = .internal L) (hR : s.page r = .internal R)
    (hitems : R.items = e :: e' :: C) (hN : 1 < N.items.length) (hel : e.2 ≠ l) (her : e.2 ≠ r)
    (heP : e.2 ≠ P) :
    exec flat (redistribute .internal r l P 0) header s = some ((.success, header),
      (((s.set e.2 ((s.page e.2).setParentPageNum l)).set l
        (.internal { L with items := L.items ++ [e] })).set r
        (.internal { R with items := e' :: C })).set P (.internal (N.setKeyAt 1 e'.1))) := by
  simp [redistribute, moveFirstToEnd, copyFrom, reparent_singleton, hL, hR, hP, hitems, hl.symm,
    hr.symm, hlr.symm, IndexPage.keyAt?, exec_assert, hN, hel.symm, her.symm, heP.symm]

/-- The last child of the left node moves to the right one. -/
theorem exec_redistribute_internal_left {L R : InternalIndexNode K} {e : K × Int}
    {C : List (K × Int)} {index : ℕ} (hL : s.page l = .internal L) (hR : s.page r = .internal R)
    (hitems : L.items = C ++ [e]) (hindex : index ≠ 0) (hN : index < N.items.length) (hel : e.2 ≠ l)
    (her : e.2 ≠ r) (heP : e.2 ≠ P) :
    exec flat (redistribute .internal l r P index) header s = some ((.success, header),
      (((s.set e.2 ((s.page e.2).setParentPageNum r)).set r
        (.internal { R with items := e :: R.items })).set l (.internal { L with items := C })).set P
        (.internal (N.setKeyAt index e.1))) := by
  simp [redistribute, moveLastToFront, preappend, hL, hR, hP, hitems, hlr, hl.symm, hr.symm,
    hlr.symm, IndexPage.keyAt?, exec_assert, hN, hindex, hel.symm, her.symm, heP.symm]

end steps

/-! ## The invariant -/

section invariant

variable {C₁ C₂ : List (K × Int)} {E₁ E₂ : List (K × RID)} {k : K}

omit [LinearOrder B] [BoundedOrder B] in
/-- The capacity of a level is at least four. -/
theorem SizeInv.four_le {v : View K} {short : Option Int} (h : SizeInv header v g short) (n : ℕ) :
    4 ≤ levelMax header n ∧ (n ≠ 0 → 6 ≤ levelMax header n) := by
  have h₁ := h.leaf_max
  have h₂ := h.internal_max
  simp only [levelMax]
  split <;> simp_all [maxSize]
  omega

/-- Sharing the items of two neighbours, one of them short, so that neither is. -/
theorem IndexInv.redistribute (h : IndexInv InTree pos header s g none (some p))
    (hp : p = l ∨ p = r) (hP : P ∈ g.nodes)
    (hPc : (view s).children P = l₁ ++ (kl, l) :: (kr, r) :: l₂)
    (hC : (view s).children l ++ (view s).children r = C₁ ++ C₂)
    (hE : (view s).entries l ++ (view s).entries r = E₁ ++ E₂) (hk : InTree k)
    (hlo : g.lo l < pos k) (hhi : pos k < g.hi r) (hcells : g.level l ≠ 0 →
      Cells g.lo g.hi (g.lo l) (pos k) (C₁.map Prod.snd) ∧
        Cells g.lo g.hi (pos k) (g.hi r) (C₂.map Prod.snd))
    (hE₁ : ∀ e ∈ E₁, pos e.1 < pos k) (hE₂ : ∀ e ∈ E₂, pos k ≤ pos e.1)
    (hs₁ : levelMax header (g.level l) / 2 ≤ C₁.length + E₁.length)
    (hs₁' : C₁.length + E₁.length ≤ levelMax header (g.level l))
    (hs₂ : levelMax header (g.level l) / 2 ≤ C₂.length + E₂.length)
    (hs₂' : C₂.length + E₂.length ≤ levelMax header (g.level l))
    (hstore : StoreInv header s' g.nodes)
    (hagree : (view s').AgreesOn g.nodes
      ((view s).redistribute P l r l₁ kl k l₂ C₁ C₂ E₁ E₂)) :
    IndexInv InTree pos header s' (g.redistribute l r (pos k)) none none ∧
      ∀ e, Holds (view s') (g.redistribute l r (pos k)) e ↔ Holds (view s) g e := by
  obtain ⟨hl, hr, hlr, hlevel, hPl, -, -, -⟩ := h.tree.neighbours hP hPc
  have hPl' : P ≠ l := fun heq => by rw [heq, hlevel] at hPl; omega
  have hPr : P ≠ r := fun heq => by rw [heq] at hPl; omega
  have hlroot : l ≠ header.rootPage := h.tree.ne_root_of_mem_children hP (by simp [hPc])
  have hrroot : r ≠ header.rootPage := h.tree.ne_root_of_mem_children hP (by simp [hPc])
  have htree := h.tree.redistribute hP hPc hC hE hk hlo hhi hcells hE₁ hE₂
  have hsize : ∀ x ∈ g.nodes, (view s').size x = if x = l then C₁.length + E₁.length
      else if x = r then C₂.length + E₂.length else (view s).size x := by
    intro x hx
    simp only [View.size, (hagree x hx).2.2.1, (hagree x hx).2.2.2.1, View.redistribute]
    by_cases hxP : x = P
    · simp [hxP, hPl', hPr, hPc]
    · by_cases hxl : x = l
      · simp [hxl, hPl'.symm]
      · by_cases hxr : x = r <;> simp [hxl, hxr, hPr.symm, hlr.symm, hxP]
  have hshort : ∀ x, x ≠ l → x ≠ r → ¬ some p = some x := by
    rintro x hxl hxr heq
    cases heq
    rcases hp with rfl | rfl
    · exact hxl rfl
    · exact hxr rfl
  refine ⟨⟨htree.congr hagree, ⟨h.sizes.leaf_max, h.sizes.internal_max, fun x hx => ?_,
    fun x hx hxroot => ?_, ?_⟩, hstore⟩, fun e => ?_⟩
  · rw [hsize x hx]
    have hold := h.sizes.le_max x hx
    simp only [Ghost.redistribute]
    by_cases hxl : x = l
    · rwa [if_pos hxl, hxl]
    · by_cases hxr : x = r
      · rwa [if_neg hxl, if_pos hxr, hxr, ← hlevel]
      · rwa [if_neg hxl, if_neg hxr]
  · rw [hsize x hx]
    have hold := h.sizes.ge_half x hx hxroot
    simp only [Ghost.redistribute]
    by_cases hxl : x = l
    · rw [if_pos hxl, hxl]
      omega
    · by_cases hxr : x = r
      · rw [if_neg hxl, if_pos hxr, hxr, ← hlevel]
        omega
      · rw [if_neg (hshort x hxl hxr)] at hold
        rw [if_neg hxl, if_neg hxr]
        omega
  · have hold := h.sizes.ge_root
    rw [if_neg (hshort _ hlroot.symm hrroot.symm)] at hold
    rw [hsize _ h.tree.root_mem, if_neg hlroot.symm, if_neg hrroot.symm]
    exact hold
  · have hentries : ∀ x ∈ g.nodes, (view s').entries x =
        if x = l then E₁ else if x = r then E₂ else (view s).entries x := fun x hx =>
      (hagree x hx).2.2.2.1
    have hmem : e ∈ E₁ ∨ e ∈ E₂ ↔ e ∈ (view s).entries l ∨ e ∈ (view s).entries r := by
      rw [← List.mem_append, ← hE, List.mem_append]
    unfold Holds
    constructor
    · rintro ⟨x, hx, he⟩
      rw [hentries x hx] at he
      split at he
      next =>
        rcases hmem.mp (Or.inl he) with he | he
        · exact ⟨l, hl, he⟩
        · exact ⟨r, hr, he⟩
      next =>
        split at he
        next =>
          rcases hmem.mp (Or.inr he) with he | he
          · exact ⟨l, hl, he⟩
          · exact ⟨r, hr, he⟩
        next => exact ⟨x, hx, he⟩
    · rintro ⟨x, hx, he⟩
      by_cases hxlr : x = l ∨ x = r
      · have : e ∈ (view s).entries l ∨ e ∈ (view s).entries r := by
          rcases hxlr with rfl | rfl
          · exact Or.inl he
          · exact Or.inr he
        rcases hmem.mpr this with he | he
        · exact ⟨l, hl, by rwa [hentries l hl, if_pos rfl]⟩
        · exact ⟨r, hr, by rwa [hentries r hr, if_neg hlr.symm, if_pos rfl]⟩
      · push Not at hxlr
        exact ⟨x, hx, by rwa [hentries x hx, if_neg hxlr.1, if_neg hxlr.2]⟩

/-- Joining two neighbours, one of them short, leaves their parent short. -/
theorem IndexInv.merge (h : IndexInv InTree pos header s g none (some p)) (hp : p = l ∨ p = r)
    (hP : P ∈ g.nodes) (hPc : (view s).children P = l₁ ++ (kl, l) :: (kr, r) :: l₂)
    (hsum : (view s).size l + (view s).size r ≤ levelMax header (g.level l))
    (hstore : StoreInv header s' (g.nodes \ {r}))
    (hagree : (view s').AgreesOn (g.nodes \ {r}) ((view s).merge P l r l₁ kl l₂)) :
    IndexInv InTree pos header s' (g.merge l r) none (some P) ∧
      ∀ e, Holds (view s') (g.merge l r) e ↔ Holds (view s) g e := by
  obtain ⟨hl, hr, hlr, hlevel, hPl, -, -, -⟩ := h.tree.neighbours hP hPc
  have hPl' : P ≠ l := fun heq => by rw [heq, hlevel] at hPl; omega
  have hPr : P ≠ r := fun heq => by rw [heq] at hPl; omega
  have hlroot : l ≠ header.rootPage := h.tree.ne_root_of_mem_children hP (by simp [hPc])
  have hrroot : r ≠ header.rootPage := h.tree.ne_root_of_mem_children hP (by simp [hPc])
  have hsize : ∀ x ∈ g.nodes \ {r}, (view s').size x + (if x = P then 1 else 0) =
      (view s).size x + if x = l then (view s).size r else 0 := by
    intro x hx
    simp only [View.size, (hagree x hx).2.2.1, (hagree x hx).2.2.2.1, View.merge]
    by_cases hxP : x = P
    · simp [hxP, hPl', hPc]
      omega
    · by_cases hxl : x = l
      · simp [hxl, hPl'.symm]
        omega
      · simp [hxl, hxP]
  have hp' : p ≠ P := by
    rcases hp with rfl | rfl
    · exact hPl'.symm
    · exact hPr.symm
  refine ⟨⟨(h.tree.merge hP hPc).congr hagree, ⟨h.sizes.leaf_max, h.sizes.internal_max,
    fun x hx => ?_, fun x hx hxroot => ?_, ?_⟩, hstore⟩, fun e => ?_⟩
  · have hx' := hsize x hx
    have hold := h.sizes.le_max x hx.1
    simp only [Ghost.merge]
    by_cases hxl : x = l
    · rw [if_pos hxl, hxl] at hx'
      rw [hxl]
      omega
    · rw [if_neg hxl] at hx'
      omega
  · have hx' := hsize x hx
    have hold := h.sizes.ge_half x hx.1 hxroot
    simp only [Ghost.merge]
    by_cases hxl : x = l
    · -- one of the two is half full
      have hl' := h.sizes.ge_half l hl hlroot
      have hr' := h.sizes.ge_half r hr hrroot
      have hfour := h.sizes.four_le (g.level l)
      rw [← hlevel] at hr'
      rw [if_pos hxl, hxl, if_neg hPl'.symm] at hx'
      rw [hxl]
      rcases hp with rfl | rfl <;> split_ifs at hl' hr' <;> omega
    · rw [if_neg hxl] at hx'
      have hxp : ¬ some p = some x := by
        rintro heq
        cases heq
        rcases hp with rfl | rfl
        · exact hxl rfl
        · exact hx.2 rfl
      rw [if_neg hxp] at hold
      by_cases hxP : x = P
      · subst hxP
        simp only [if_true] at hx' ⊢
        omega
      · rw [if_neg hxP] at hx'
        omega
  · have hold := h.sizes.ge_root
    have hx' := hsize header.rootPage ⟨h.tree.root_mem, hrroot.symm⟩
    rw [if_neg hlroot.symm] at hx'
    have hpr : ¬ some p = some header.rootPage := by
      rintro heq
      cases heq
      rcases hp with heq | heq
      · exact hlroot heq.symm
      · exact hrroot heq.symm
    rw [if_neg hpr] at hold
    change (if g.level header.rootPage = 0 then 1 else 2) ≤ _
    simp only [Option.some.injEq, eq_comm (a := P)]
    omega
  · have hentries : ∀ x ∈ g.nodes \ {r}, (view s').entries x =
        if x = l then (view s).entries l ++ (view s).entries r else (view s).entries x :=
      fun x hx => (hagree x hx).2.2.2.1
    unfold Holds
    constructor
    · rintro ⟨x, hx, he⟩
      rw [hentries x hx] at he
      split at he
      next =>
        rcases List.mem_append.mp he with he | he
        · exact ⟨l, hl, he⟩
        · exact ⟨r, hr, he⟩
      next => exact ⟨x, hx.1, he⟩
    · rintro ⟨x, hx, he⟩
      by_cases hxlr : x = l ∨ x = r
      · refine ⟨l, ⟨hl, hlr⟩, ?_⟩
        rw [hentries l ⟨hl, hlr⟩, if_pos rfl, List.mem_append]
        rcases hxlr with rfl | rfl
        · exact Or.inl he
        · exact Or.inr he
      · push Not at hxlr
        exact ⟨x, ⟨hx, hxlr.2⟩, by rwa [hentries x ⟨hx, hxlr.2⟩, if_neg hxlr.1]⟩

end invariant

/-! ## Redistribution -/

/-- Two neighbours `l` and `r` and their parent `P`. -/
structure Neighbours (s : FlatPool (IndexPage K)) (g : Ghost B) (P : Int) (N : InternalIndexNode K)
    (l₁ : List (K × Int)) (kl : K) (l : Int) (kr : K) (r : Int) (l₂ : List (K × Int)) : Prop where
  /-- The parent is a node. -/
  mem : P ∈ g.nodes
  /-- The parent is an internal node. -/
  page_eq : s.page P = .internal N
  /-- Its items. -/
  items_eq : N.items = l₁ ++ (kl, l) :: (kr, r) :: l₂

section redistribute

variable {short : Option Int}

omit [LinearOrder B] [BoundedOrder B] in
theorem Neighbours.children (hN : Neighbours s g P N l₁ kl l kr r l₂) :
    (view s).children P = l₁ ++ (kl, l) :: (kr, r) :: l₂ := by
  simp [view, hN.page_eq, IndexPage.children, hN.items_eq]

/-- The three pages differ. -/
theorem IndexInv.neighbours_ne (h : IndexInv InTree pos header s g none short)
    (hN : Neighbours s g P N l₁ kl l kr r l₂) : l ≠ P ∧ r ≠ P ∧ l ≠ r := by
  obtain ⟨-, -, hlr, hlevel, hPl, -⟩ := h.tree.neighbours hN.mem hN.children
  refine ⟨fun heq => ?_, fun heq => ?_, hlr⟩
  · rw [← heq, hlevel] at hPl
    omega
  · rw [← heq] at hPl
    omega

/-- The items of a leaf. -/
theorem IndexInv.exists_leaf (h : IndexInv InTree pos header s g none short) (hp : p ∈ g.nodes)
    (hl : g.level p = 0) : ∃ n, s.page p = .leaf n ∧ (view s).entries p = n.items ∧
      (view s).children p = [] ∧ (view s).size p = n.items.length :=
  h.tree.toNodeInv.exists_leaf hp hl

/-- The items of an internal node. -/
theorem IndexInv.exists_internal (h : IndexInv InTree pos header s g none short) (hp : p ∈ g.nodes)
    (hl : g.level p ≠ 0) : ∃ n, s.page p = .internal n ∧ (view s).children p = n.items ∧
      (view s).entries p = [] ∧ (view s).size p = n.items.length :=
  h.tree.toNodeInv.exists_internal hp hl

/-- Two leaves share their entries in a new way: the entry `e` is the first of the right one. -/
theorem IndexInv.redistribute_leaf {L R : LeafIndexNode K} {E₁ E₂ : List (K × RID)} {e : K × RID}
    (h : IndexInv InTree pos header s g none (some p)) (hp : p = l ∨ p = r)
    (hN : Neighbours s g P N l₁ kl l kr r l₂) (hl0 : g.level l = 0) (hL : s.page l = .leaf L)
    (hR : s.page r = .leaf R) (hE : L.items ++ R.items = E₁ ++ e :: E₂)
    (hs₁ : levelMax header (g.level l) / 2 ≤ E₁.length)
    (hs₁' : E₁.length ≤ levelMax header (g.level l))
    (hs₂ : levelMax header (g.level l) / 2 ≤ E₂.length + 1)
    (hs₂' : E₂.length + 1 ≤ levelMax header (g.level l)) (hstore : StoreInv header s' g.nodes)
    (hpages : ∀ x ∈ g.nodes, s'.page x =
      if x = P then .internal ⟨N.parent, l₁ ++ (kl, l) :: (e.1, r) :: l₂⟩
      else if x = l then .leaf { L with items := E₁ }
      else if x = r then .leaf { R with items := e :: E₂ } else s.page x) :
    IndexInv InTree pos header s' (g.redistribute l r (pos e.1)) none none ∧
      ∀ f, Holds (view s') (g.redistribute l r (pos e.1)) f ↔ Holds (view s) g f := by
  obtain ⟨hl, hr, hlr, hlevel, -, hmeet, -, -⟩ := h.tree.neighbours hN.mem hN.children
  obtain ⟨hlP, hrP, -⟩ := h.neighbours_ne hN
  have hEl : (view s).entries l = L.items := by simp [view, hL, IndexPage.entries]
  have hEr : (view s).entries r = R.items := by simp [view, hR, IndexPage.entries]
  have hltl := h.tree.lo_lt_hi l hl
  have hltr := h.tree.lo_lt_hi r hr
  have hfour := h.sizes.four_le (g.level l)
  -- the entries of both are sorted and lie in the joined interval
  have hsorted : (E₁ ++ e :: E₂).Pairwise fun e f => pos e.1 < pos f.1 := by
    rw [← hE, ← hEl, ← hEr]
    refine List.pairwise_append.mpr ⟨h.tree.sorted l hl, h.tree.sorted r hr, fun a ha b hb => ?_⟩
    exact (h.tree.entry l hl a ha).2.2.trans_le (hmeet ▸ (h.tree.entry r hr b hb).2.1)
  have hentry : ∀ f ∈ E₁ ++ e :: E₂, InTree f.1 ∧ g.lo l ≤ pos f.1 ∧ pos f.1 < g.hi r := by
    intro f hf
    rw [← hE, ← hEl, ← hEr] at hf
    rcases List.mem_append.mp hf with hf | hf
    · obtain ⟨hin, hlo, hhi⟩ := h.tree.entry l hl f hf
      exact ⟨hin, hlo, hhi.trans (hmeet ▸ hltr)⟩
    · obtain ⟨hin, hlo, hhi⟩ := h.tree.entry r hr f hf
      exact ⟨hin, (hmeet ▸ hltl).le.trans hlo, hhi⟩
  rw [List.pairwise_append, List.pairwise_cons] at hsorted
  have he := hentry e (by simp)
  obtain ⟨a, ha⟩ := List.exists_mem_of_length_pos (show 0 < E₁.length by omega)
  have hagree : (view s').AgreesOn g.nodes
      ((view s).redistribute P l r l₁ kl e.1 l₂ [] [] E₁ (e :: E₂)) := by
    intro x hx
    have hpx := hpages x hx
    by_cases hxP : x = P
    · subst hxP
      simp [view, View.redistribute, hpx, hN.page_eq, hlP.symm, hrP.symm, IndexPage.kind,
        IndexPage.parentPageNum, IndexPage.children, IndexPage.entries]
    · by_cases hxl : x = l
      · subst hxl
        simp [view, View.redistribute, hpx, hL, hlP, IndexPage.kind, IndexPage.parentPageNum,
          IndexPage.children, IndexPage.entries, IndexPage.next, IndexPage.prev]
      · by_cases hxr : x = r
        · subst hxr
          simp [view, View.redistribute, hpx, hR, hlr.symm, hrP, IndexPage.kind,
            IndexPage.parentPageNum, IndexPage.children, IndexPage.entries, IndexPage.next,
            IndexPage.prev]
        · simp [view, View.redistribute, hpx, hxP, hxl, hxr]
  refine h.redistribute hp hN.mem hN.children ?_ ?_ he.1 ?_ he.2.2 (fun hne => absurd hl0 hne)
    (fun f hf => hsorted.2.2 f hf e (by simp)) (fun f hf => ?_) ?_ ?_ ?_ ?_ hstore hagree
  · rw [h.tree.leaf_children l hl hl0, h.tree.leaf_children r hr (hlevel ▸ hl0)]
  · rw [hEl, hEr, hE]
  · exact (hentry a (by simp [ha])).2.1.trans_lt (hsorted.2.2 a ha e (by simp))
  · rcases List.mem_cons.mp hf with rfl | hf
    · exact le_rfl
    · exact (hsorted.2.1.1 f hf).le
  all_goals simp only [List.length_nil, List.length_cons, Nat.zero_add]; omega

/-- Two internal nodes share their children in a new way: `c` is the first of the right one. -/
theorem IndexInv.redistribute_internal {L R : InternalIndexNode K} {C₁ C₂ : List (K × Int)} {k : K}
    {c : Int} (h : IndexInv InTree pos header s g none (some p)) (hp : p = l ∨ p = r)
    (hN : Neighbours s g P N l₁ kl l kr r l₂) (hl0 : g.level l ≠ 0) (hL : s.page l = .internal L)
    (hR : s.page r = .internal R) (hC : L.items ++ R.items = C₁ ++ (k, c) :: C₂)
    (hs₁ : levelMax header (g.level l) / 2 ≤ C₁.length)
    (hs₁' : C₁.length ≤ levelMax header (g.level l))
    (hs₂ : levelMax header (g.level l) / 2 ≤ C₂.length + 1)
    (hs₂' : C₂.length + 1 ≤ levelMax header (g.level l)) (hstore : StoreInv header s' g.nodes)
    (hpages : ∀ x ∈ g.nodes, s'.page x =
      if x = P then .internal ⟨N.parent, l₁ ++ (kl, l) :: (k, r) :: l₂⟩
      else if x = l then .internal { L with items := C₁ }
      else if x = r then .internal { R with items := (k, c) :: C₂ }
      else if x ∈ C₁.map Prod.snd then (s.page x).setParentPageNum l
      else if x ∈ ((k, c) :: C₂).map Prod.snd then (s.page x).setParentPageNum r else s.page x) :
    ∃ g', IndexInv InTree pos header s' g' none none ∧
      (∀ f, Holds (view s') g' f ↔ Holds (view s) g f) ∧ g'.level = g.level := by
  obtain ⟨hl, hr, hlr, hlevel, hPl, hmeet, -, -⟩ := h.tree.neighbours hN.mem hN.children
  obtain ⟨hlP, hrP, -⟩ := h.neighbours_ne hN
  have hCl : (view s).children l = L.items := by simp [view, hL, IndexPage.children]
  have hCr : (view s).children r = R.items := by simp [view, hR, IndexPage.children]
  have hfour := h.sizes.four_le (g.level l)
  -- the children of both are cells of the joined interval
  have hcells : Cells g.lo g.hi (g.lo l) (g.hi r) ((C₁ ++ (k, c) :: C₂).map Prod.snd) := by
    rw [← hC, ← hCl, ← hCr, List.map_append]
    exact cells_append.mpr ⟨g.hi l, h.tree.cells l hl hl0,
      hmeet ▸ h.tree.cells r hr (hlevel ▸ hl0)⟩
  rw [List.map_append, List.map_cons] at hcells
  obtain ⟨hc₁, hltc, hc₂⟩ := cells_cut hcells
  obtain ⟨a, ha⟩ := List.exists_mem_of_length_pos (show 0 < C₁.length by omega)
  have hlo : g.lo l < g.lo c := by
    obtain ⟨hle, hlt, hle'⟩ := cells_mem hc₁ (List.mem_map_of_mem (f := Prod.snd) ha)
    exact hle.trans_lt (hlt.trans_le hle')
  have hchild : ∀ e ∈ C₁ ++ (k, c) :: C₂, g.level e.2 + 1 = g.level l ∧
      (g.lo e.2 = ⊥ ∨ InTree e.1 ∧ pos e.1 = g.lo e.2) := by
    intro e he
    rw [← hC, ← hCl, ← hCr] at he
    rcases List.mem_append.mp he with he | he
    · exact ⟨(h.tree.child l hl e he).2.1, (h.tree.child l hl e he).2.2.2⟩
    · exact ⟨hlevel ▸ (h.tree.child r hr e he).2.1, (h.tree.child r hr e he).2.2.2⟩
  have hlow : ∀ x, x ∈ C₁.map Prod.snd ∨ x ∈ ((k, c) :: C₂).map Prod.snd →
      g.level x + 1 = g.level l := fun x hx => by
    rw [← List.mem_append, ← List.map_append] at hx
    obtain ⟨e, he, rfl⟩ := List.mem_map.mp hx
    exact (hchild e he).1
  have hkc : InTree k ∧ pos k = g.lo c := by
    rcases (hchild (k, c) (by simp)).2 with hbot | hkc
    · exact absurd (hbot ▸ hlo) not_lt_bot
    · exact hkc
  have hagree : (view s').AgreesOn g.nodes
      ((view s).redistribute P l r l₁ kl k l₂ C₁ ((k, c) :: C₂) [] []) := by
    intro x hx
    have hpx := hpages x hx
    have hxlow := hlow x
    by_cases hxP : x = P
    · subst hxP
      have h₁ : x ∉ C₁.map Prod.snd := fun hmem => by have := hxlow (Or.inl hmem); omega
      have h₂ : x ∉ ((k, c) :: C₂).map Prod.snd := fun hmem => by
        have := hxlow (Or.inr hmem)
        omega
      simp only [view, View.redistribute, hpx, hN.page_eq, hlP.symm, hrP.symm, h₁, h₂, if_true,
        if_false, IndexPage.kind, IndexPage.parentPageNum, IndexPage.children, IndexPage.entries]
      simp
    · by_cases hxl : x = l
      · subst hxl
        have h₁ : x ∉ C₁.map Prod.snd := fun hmem => by have := hxlow (Or.inl hmem); omega
        have h₂ : x ∉ ((k, c) :: C₂).map Prod.snd := fun hmem => by
          have := hxlow (Or.inr hmem)
          omega
        simp only [view, View.redistribute, hpx, hL, hlP, h₁, h₂, if_true, if_false,
          IndexPage.kind, IndexPage.parentPageNum, IndexPage.children, IndexPage.entries]
        simp
      · by_cases hxr : x = r
        · subst hxr
          have h₁ : x ∉ C₁.map Prod.snd := fun hmem => by have := hxlow (Or.inl hmem); omega
          have h₂ : x ∉ ((k, c) :: C₂).map Prod.snd := fun hmem => by
            have := hxlow (Or.inr hmem)
            omega
          simp only [view, View.redistribute, hpx, hR, hrP, hlr.symm, h₁, h₂, if_true, if_false,
            IndexPage.kind, IndexPage.parentPageNum, IndexPage.children, IndexPage.entries]
          simp
        · have hkind := h.kind_ne_none hx
          simp only [view, View.redistribute, hpx, hxP, hxl, hxr, if_false]
          by_cases h₁ : x ∈ C₁.map Prod.snd
          · simp only [if_pos h₁, IndexPage.parent_setParent _ _ hkind, IndexPage.kind_setParent,
              IndexPage.children_setParent, IndexPage.entries_setParent, IndexPage.next_setParent,
              IndexPage.prev_setParent, implies_true, and_self]
          · by_cases h₂ : x ∈ ((k, c) :: C₂).map Prod.snd
            · simp only [if_neg h₁, if_pos h₂, IndexPage.parent_setParent _ _ hkind,
                IndexPage.kind_setParent, IndexPage.children_setParent, IndexPage.entries_setParent,
                IndexPage.next_setParent, IndexPage.prev_setParent, implies_true, and_self]
            · simp only [if_neg h₁, if_neg h₂, implies_true, and_self]
  obtain ⟨hinv, hholds⟩ := h.redistribute hp hN.mem hN.children (by rw [hCl, hCr, hC])
    (by rw [h.tree.internal_entries l hl hl0, h.tree.internal_entries r hr (hlevel ▸ hl0)]) hkc.1
    (hkc.2 ▸ hlo) (hkc.2 ▸ hltc.trans_le (cells_le hc₂))
    (fun _ => by rw [hkc.2]; exact ⟨hc₁, rfl, hltc, hc₂⟩) (by simp) (by simp)
    (by simpa using hs₁) (by simpa using hs₁') (by simpa using hs₂) (by simpa using hs₂') hstore
    hagree
  exact ⟨_, hinv, hholds, rfl⟩

/-- The node handler class of a level. -/
def levelKind (level : ℕ) : NodeKind := if level = 0 then .leaf else .internal

omit [LinearOrder B] [BoundedOrder B] in
/-- Setting the parent a page already has. -/
theorem setParentPageNum_eq_self {n : IndexPage K} {a : Int} (h : n.parentPageNum = a) :
    n.setParentPageNum a = n := by
  cases n <;> cases h <;> rfl

/-- The sizes of a short node and of a neighbour with items to spare. -/
theorem IndexInv.spare (h : IndexInv InTree pos header s g none (some p)) (hp : p ∈ g.nodes)
    (hroot : p ≠ header.rootPage) (hq : q ∈ g.nodes) (hlevel : g.level p = g.level q)
    (hless : (view s).size p < levelMax header (g.level p) - levelMax header (g.level p) / 2)
    (hsum : levelMax header (g.level p) < (view s).size p + (view s).size q) :
    levelMax header (g.level p) / 2 ≤ (view s).size p + 1 ∧
      (view s).size p + 1 ≤ levelMax header (g.level p) ∧
      levelMax header (g.level p) / 2 + 1 ≤ (view s).size q ∧
      (view s).size q ≤ levelMax header (g.level p) ∧ 2 ≤ levelMax header (g.level p) / 2 := by
  have hhalf := h.sizes.ge_half p hp hroot
  have hmax := h.sizes.le_max q hq
  have hfour := h.sizes.four_le (g.level p)
  rw [if_pos rfl] at hhalf
  rw [← hlevel] at hmax
  omega

/-- The neighbour at the right gives its first item. -/
theorem redistribute_right_ok (h : IndexInv InTree pos header s g none (some l))
    (hN : Neighbours s g P N [] kl l kr r l₂)
    (hless : (view s).size l < levelMax header (g.level l) - levelMax header (g.level l) / 2)
    (hsum : levelMax header (g.level l) < (view s).size l + (view s).size r) :
    ∃ s' g', exec flat (redistribute (levelKind (g.level l)) r l P 0) header s =
        some ((.success, header), s') ∧ IndexInv InTree pos header s' g' none none ∧
      (∀ e, Holds (view s') g' e ↔ Holds (view s) g e) ∧ g'.level = g.level := by
  obtain ⟨hl, hr, hlr, hlevel, -, -, -, -⟩ := h.tree.neighbours hN.mem hN.children
  obtain ⟨hlP, hrP, -⟩ := h.neighbours_ne hN
  have hroot := h.tree.ne_root_of_mem_children hN.mem (c := l) (by simp [hN.children])
  have hspare := h.spare hl hroot hr hlevel hless hsum
  have hset : ∀ k, N.setKeyAt 1 k = ⟨N.parent, (kl, l) :: (k, r) :: l₂⟩ := fun k => by
    rw [InternalIndexNode.setKeyAt, hN.items_eq]
    rfl
  have hlen : 1 < N.items.length := by simp [hN.items_eq]
  by_cases hl0 : g.level l = 0
  · obtain ⟨L, hL, -, -, hsl⟩ := h.exists_leaf hl hl0
    obtain ⟨R, hR, -, -, hsr⟩ := h.exists_leaf hr (hlevel ▸ hl0)
    rw [hsl, hsr] at hspare
    obtain ⟨e, e', E, hitems⟩ : ∃ e e' E, R.items = e :: e' :: E := by
      rcases hR' : R.items with _ | ⟨e, _ | ⟨e', E⟩⟩
      · simp [hR'] at hspare
      · simp [hR'] at hspare
        omega
      · exact ⟨e, e', E, rfl⟩
    rw [hitems, List.length_cons, List.length_cons] at hspare
    obtain ⟨hinv, hholds⟩ := h.redistribute_leaf (Or.inl rfl) hN hl0 hL hR
      (show L.items ++ R.items = (L.items ++ [e]) ++ e' :: E by simp [hitems])
      (by simp; omega) (by simp; omega) (by omega) (by omega)
      (((h.store.set hl (.leaf { L with items := L.items ++ [e] })).set hr
        (.leaf { R with items := e' :: E })).set hN.mem (.internal (N.setKeyAt 1 e'.1)))
      (fun x _ => by simp only [FlatPool.set_page, hset, List.nil_append]; grind)
    refine ⟨_, _, ?_, hinv, hholds, rfl⟩
    rw [levelKind, if_pos hl0]
    exact exec_redistribute_leaf_right hlP hrP hlr hN.page_eq hL hR hitems hlen
  · obtain ⟨L, hL, hCl, -, hsl⟩ := h.exists_internal hl hl0
    obtain ⟨R, hR, hCr, -, hsr⟩ := h.exists_internal hr (hlevel ▸ hl0)
    rw [hsl, hsr] at hspare
    obtain ⟨e, e', C, hitems⟩ : ∃ e e' C, R.items = e :: e' :: C := by
      rcases hR' : R.items with _ | ⟨e, _ | ⟨e', C⟩⟩
      · simp [hR'] at hspare
      · simp [hR'] at hspare
        omega
      · exact ⟨e, e', C, rfl⟩
    rw [hitems, List.length_cons, List.length_cons] at hspare
    have hchildl : ∀ x ∈ L.items.map Prod.snd, (s.page x).parentPageNum = l := fun x hx =>
      (h.tree.of_mem_children hl (hCl.symm ▸ hx)).2.2
    have hchildr : ∀ x ∈ R.items.map Prod.snd, (s.page x).parentPageNum = r := fun x hx =>
      (h.tree.of_mem_children hr (hCr.symm ▸ hx)).2.2
    obtain ⟨hem, hel, -⟩ := h.tree.of_mem_children hr (c := e.2) (by simp [hCr, hitems])
    have hne : ∀ y, g.level y ≠ g.level e.2 → e.2 ≠ y := fun y hy heq => hy (by rw [heq])
    have hPl := (h.tree.neighbours hN.mem hN.children).2.2.2.2.1
    obtain ⟨g', hinv, hholds, hg'⟩ := h.redistribute_internal (Or.inl rfl) hN hl0 hL hR
      (show L.items ++ R.items = (L.items ++ [e]) ++ (e'.1, e'.2) :: C by simp [hitems])
      (by simp; omega) (by simp; omega) (by omega) (by omega)
      ((((h.store.set hem ((s.page e.2).setParentPageNum l)).set hl
        (.internal { L with items := L.items ++ [e] })).set hr
        (.internal { R with items := e' :: C })).set hN.mem (.internal (N.setKeyAt 1 e'.1)))
      (fun x _ => by
        -- every child but the one that moves has the right parent already
        have hself := fun a => setParentPageNum_eq_self (n := s.page x) (a := a)
        have hxl := hchildl x
        have hxr := hchildr x
        simp only [FlatPool.set_page, hset, List.nil_append, hitems, List.map_cons, List.mem_cons,
          List.map_append, List.mem_append, List.map_nil, List.not_mem_nil] at hxr ⊢
        grind)
    refine ⟨_, g', ?_, hinv, hholds, hg'⟩
    rw [levelKind, if_neg hl0]
    exact exec_redistribute_internal_right hlP hrP hlr hN.page_eq hL hR hitems hlen
      (hne l (by omega)) (hne r (by omega)) (hne P (by omega))

/-- The neighbour at the left gives its last item. -/
theorem redistribute_left_ok (h : IndexInv InTree pos header s g none (some r))
    (hN : Neighbours s g P N l₁ kl l kr r l₂)
    (hless : (view s).size r < levelMax header (g.level r) - levelMax header (g.level r) / 2)
    (hsum : levelMax header (g.level r) < (view s).size r + (view s).size l) :
    ∃ s' g', exec flat (redistribute (levelKind (g.level r)) l r P (l₁.length + 1)) header s =
        some ((.success, header), s') ∧ IndexInv InTree pos header s' g' none none ∧
      (∀ e, Holds (view s') g' e ↔ Holds (view s) g e) ∧ g'.level = g.level := by
  obtain ⟨hl, hr, hlr, hlevel, -, -, -, -⟩ := h.tree.neighbours hN.mem hN.children
  obtain ⟨hlP, hrP, -⟩ := h.neighbours_ne hN
  have hroot := h.tree.ne_root_of_mem_children hN.mem (c := r) (by simp [hN.children])
  have hspare := h.spare hr hroot hl hlevel.symm hless hsum
  have hset : ∀ k, N.setKeyAt (l₁.length + 1) k = ⟨N.parent, l₁ ++ (kl, l) :: (k, r) :: l₂⟩ :=
    fun k => by
      have hset := setKeyAt_append (l₁ ++ [(kl, l)]) l₂ N.parent r kr k
      simp only [List.length_append, List.length_singleton, List.append_assoc,
        List.singleton_append, ← hN.items_eq] at hset
      exact hset
  have hlen : l₁.length + 1 < N.items.length := by simp [hN.items_eq]
  by_cases hr0 : g.level r = 0
  · obtain ⟨L, hL, -, -, hsl⟩ := h.exists_leaf hl (hlevel ▸ hr0)
    obtain ⟨R, hR, -, -, hsr⟩ := h.exists_leaf hr hr0
    rw [hsl, hsr] at hspare
    obtain ⟨E, e, hitems⟩ : ∃ E e, L.items = E ++ [e] :=
      List.eq_nil_or_concat' L.items |>.resolve_left fun hnil => by simp [hnil] at hspare
    rw [hitems, List.length_append, List.length_singleton, ← hlevel] at hspare
    obtain ⟨hinv, hholds⟩ := h.redistribute_leaf (Or.inr rfl) hN (hlevel ▸ hr0) hL hR
      (show L.items ++ R.items = E ++ e :: R.items by simp [hitems])
      (by omega) (by omega) (by omega) (by omega)
      (((h.store.set hr (.leaf { R with items := e :: R.items })).set hl
        (.leaf { L with items := E })).set hN.mem (.internal (N.setKeyAt (l₁.length + 1) e.1)))
      (fun x _ => by simp only [FlatPool.set_page, hset])
    refine ⟨_, _, ?_, hinv, hholds, rfl⟩
    rw [levelKind, if_pos hr0]
    exact exec_redistribute_leaf_left hlP hrP hlr hN.page_eq hL hR hitems (by omega) hlen
  · obtain ⟨L, hL, hCl, -, hsl⟩ := h.exists_internal hl (hlevel ▸ hr0)
    obtain ⟨R, hR, hCr, -, hsr⟩ := h.exists_internal hr hr0
    rw [hsl, hsr] at hspare
    obtain ⟨C, e, hitems⟩ : ∃ C e, L.items = C ++ [e] :=
      List.eq_nil_or_concat' L.items |>.resolve_left fun hnil => by simp [hnil] at hspare
    rw [hitems, List.length_append, List.length_singleton, ← hlevel] at hspare
    have hchildl : ∀ x ∈ L.items.map Prod.snd, (s.page x).parentPageNum = l := fun x hx =>
      (h.tree.of_mem_children hl (hCl.symm ▸ hx)).2.2
    have hchildr : ∀ x ∈ R.items.map Prod.snd, (s.page x).parentPageNum = r := fun x hx =>
      (h.tree.of_mem_children hr (hCr.symm ▸ hx)).2.2
    have hnodup := h.tree.nodup_children hl
    rw [hCl, hitems, List.map_append, List.map_singleton, List.nodup_append] at hnodup
    have heC : e.2 ∉ C.map Prod.snd := fun hmem => hnodup.2.2 _ hmem _ (by simp) rfl
    obtain ⟨hem, hel, -⟩ := h.tree.of_mem_children hl (c := e.2) (by simp [hCl, hitems])
    have hne : ∀ y, g.level y ≠ g.level e.2 → e.2 ≠ y := fun y hy heq => hy (by rw [heq])
    have hPl := (h.tree.neighbours hN.mem hN.children).2.2.2.2.1
    obtain ⟨g', hinv, hholds, hg'⟩ := h.redistribute_internal (Or.inr rfl) hN (hlevel ▸ hr0) hL hR
      (show L.items ++ R.items = C ++ (e.1, e.2) :: R.items by simp [hitems])
      (by omega) (by omega) (by omega) (by omega)
      ((((h.store.set hem ((s.page e.2).setParentPageNum r)).set hr
        (.internal { R with items := e :: R.items })).set hl
        (.internal { L with items := C })).set hN.mem (.internal (N.setKeyAt (l₁.length + 1) e.1)))
      (fun x _ => by
        -- every child but the one that moves has the right parent already
        have hself := fun a => setParentPageNum_eq_self (n := s.page x) (a := a)
        have hxl := hchildl x
        have hxr := hchildr x
        simp only [FlatPool.set_page, hset, hitems, List.map_cons, List.mem_cons,
          List.map_append, List.mem_append, List.map_nil, List.not_mem_nil] at hxl ⊢
        grind)
    refine ⟨_, g', ?_, hinv, hholds, hg'⟩
    rw [levelKind, if_neg hr0]
    exact exec_redistribute_internal_left hlP hrP hlr hN.page_eq hL hR hitems (by omega) hlen
      (hne l (by omega)) (hne r (by omega)) (hne P (by omega))

end redistribute

/-! ## Merging -/

section coalesce

/-- Which of the two nodes of `coalesce` is the left one, and the index of the right one. -/
def Sides (p q : Int) (index : ℕ) (l r : Int) (i : ℕ) : Prop :=
  index = 0 ∧ p = l ∧ q = r ∧ i = 1 ∨ index ≠ 0 ∧ q = l ∧ p = r ∧ i = index

variable {index i : ℕ} (again : Int → TreeM K RC)

omit [LinearOrder B] [BoundedOrder B] in
/-- Merging two leaves. The next leaf, if there is one, is told about the left one twice. -/
theorem exec_coalesce_leaf {L R : LeafIndexNode K} (hside : Sides p q index l r i) (hl : l ≠ P)
    (hr : r ≠ P) (hlr : l ≠ r) (hP : s.page P = .internal N) (hi : i < N.items.length)
    (hL : s.page l = .leaf L) (hR : s.page r = .leaf R)
    (hnext : R.nextBrother ≠ bpInvalidPageNum → ∃ X, s.page R.nextBrother = .leaf X ∧
      R.nextBrother ≠ l ∧ R.nextBrother ≠ r) :
    ∃ s', exec flat (coalesce again .leaf q p P index) header s = exec flat (again P) header s' ∧
      s'.bitmap = (s.dispose r).bitmap ∧ s'.pageCount = s.pageCount ∧
      ∀ x, x ≠ r → s'.page x =
        if x = P then .internal (N.remove i)
        else if x = l then
          .leaf { L with items := L.items ++ R.items, nextBrother := R.nextBrother }
        else if x = R.nextBrother ∧ x ≠ bpInvalidPageNum then (s.page x).setPrev l
        else s.page x := by
  by_cases hend : R.nextBrother = bpInvalidPageNum
  · refine ⟨((((s.set P (.internal (N.remove i))).set l (.leaf { L with
      items := L.items ++ R.items })).set r (.leaf { R with items := [] })).set l (.leaf { L with
      items := L.items ++ R.items, nextBrother := R.nextBrother })).dispose r, ?_, rfl, rfl, ?_⟩
    · rcases hside with ⟨rfl, rfl, rfl, rfl⟩ | ⟨hne, rfl, rfl, rfl⟩
      · simp [coalesce, moveTo, hP, hL, hR, hl, hr, hlr, hlr.symm, exec_assert, hi, hend,
          IndexPage.isLeaf]
      · simp [coalesce, moveTo, hP, hL, hR, hl, hr, hlr, hlr.symm, exec_assert, hi, hend, hne,
          IndexPage.isLeaf]
    · intro x hx
      simp only [FlatPool.dispose_page, FlatPool.set_page, hend]
      grind
  · obtain ⟨X, hX, hXl, hXr⟩ := hnext hend
    have hXP : R.nextBrother ≠ P := fun heq => by rw [heq, hP] at hX; cases hX
    refine ⟨(((((((s.set P (.internal (N.remove i))).set l (.leaf { L with
      items := L.items ++ R.items })).set r (.leaf { R with items := [] })).set l (.leaf { L with
      items := L.items ++ R.items, nextBrother := R.nextBrother })).set R.nextBrother
      (.leaf { X with prevBrother := l })).set l (.leaf { L with
      items := L.items ++ R.items, nextBrother := R.nextBrother })).set R.nextBrother
      (.leaf { X with prevBrother := l })).dispose r, ?_, rfl, rfl, ?_⟩
    · rcases hside with ⟨rfl, rfl, rfl, rfl⟩ | ⟨hne, rfl, rfl, rfl⟩
      · simp [coalesce, moveTo, hP, hL, hR, hl, hr, hlr, hlr.symm, exec_assert, hi, hend,
          IndexPage.isLeaf, hX, hXl, hXr, hXP, hXl.symm, hXr.symm]
      · simp [coalesce, moveTo, hP, hL, hR, hl, hr, hlr, hlr.symm, exec_assert, hi, hend, hne,
          IndexPage.isLeaf, hX, hXl, hXr, hXP, hXl.symm, hXr.symm]
    · intro x hx
      simp only [FlatPool.dispose_page, FlatPool.set_page]
      by_cases hxX : x = R.nextBrother
      · simp [hxX, hXl, hXP, hend, hX, IndexPage.setPrev]
      · simp only [hxX, if_false, false_and]
        grind

omit [LinearOrder B] [BoundedOrder B] in
/-- Merging two internal nodes. -/
theorem exec_coalesce_internal {L R : InternalIndexNode K} (hside : Sides p q index l r i)
    (hl : l ≠ P) (hr : r ≠ P) (hlr : l ≠ r) (hP : s.page P = .internal N) (hi : i < N.items.length)
    (hL : s.page l = .internal L) (hR : s.page r = .internal R)
    (hlR : l ∉ R.items.map Prod.snd) (hrR : r ∉ R.items.map Prod.snd)
    (hPR : P ∉ R.items.map Prod.snd) :
    ∃ s', exec flat (coalesce again .internal q p P index) header s =
        exec flat (again P) header s' ∧
      s'.bitmap = (s.dispose r).bitmap ∧ s'.pageCount = s.pageCount ∧
      ∀ x, x ≠ r → s'.page x =
        if x = P then .internal (N.remove i)
        else if x = l then .internal { L with items := L.items ++ R.items }
        else if x ∈ R.items.map Prod.snd then (s.page x).setParentPageNum l
        else s.page x := by
  refine ⟨(((reparent (s.set P (.internal (N.remove i))) l (R.items.map Prod.snd)).set l
    (.internal { L with items := L.items ++ R.items })).set r
    (.internal { R with items := [] })).dispose r, ?_, rfl, rfl, fun x hx => ?_⟩
  · rcases hside with ⟨rfl, rfl, rfl, rfl⟩ | ⟨hne, rfl, rfl, rfl⟩
    · simp [coalesce, moveTo, copyFrom, hP, hL, hR, hl, hr, hlr, hlr.symm, exec_assert, hi,
        IndexPage.isLeaf, hlR, hrR]
    · simp [coalesce, moveTo, copyFrom, hP, hL, hR, hl, hr, hlr, hlr.symm, exec_assert, hi, hne,
        IndexPage.isLeaf, hlR, hrR]
  · simp only [FlatPool.dispose_page, FlatPool.set_page, reparent_page]
    grind

omit [LinearOrder B] [BoundedOrder B] in
/-- The item at a cut is removed. -/
theorem remove_right (hitems : N.items = l₁ ++ (kl, l) :: (kr, r) :: l₂) :
    N.remove (l₁.length + 1) = ⟨N.parent, l₁ ++ (kl, l) :: l₂⟩ := by
  rw [InternalIndexNode.remove, hitems, List.eraseIdx_append_of_length_le (by omega)]
  simp

/-- **`coalesce`.** The two neighbours become one and the parent is the short node. -/
theorem coalesce_ok (index : ℕ) (h : IndexInv InTree pos header s g none (some p))
    (hside : Sides p q index l r (l₁.length + 1)) (hN : Neighbours s g P N l₁ kl l kr r l₂)
    (hsum : (view s).size p + (view s).size q ≤ levelMax header (g.level p)) :
    ∃ s' g', exec flat (coalesce again (levelKind (g.level p)) q p P index) header s =
        exec flat (again P) header s' ∧ IndexInv InTree pos header s' g' none (some P) ∧
      (∀ e, Holds (view s') g' e ↔ Holds (view s) g e) ∧ P ∈ g'.nodes ∧ g'.level = g.level := by
  obtain ⟨hl, hr, hlr, hlevel, hPl, hmeet, -, -⟩ := h.tree.neighbours hN.mem hN.children
  obtain ⟨hlP, hrP, -⟩ := h.neighbours_ne hN
  have hp : p = l ∨ p = r := hside.imp (·.2.1) (·.2.2.1)
  have hpl : g.level p = g.level l := by
    rcases hp with rfl | rfl
    · rfl
    · exact hlevel.symm
  have hsum' : (view s).size l + (view s).size r ≤ levelMax header (g.level l) := by
    rw [← hpl]
    rcases hside with ⟨-, rfl, rfl, -⟩ | ⟨-, rfl, rfl, -⟩ <;> omega
  have hi : l₁.length + 1 < N.items.length := by simp [hN.items_eq]
  have hremove := remove_right hN.items_eq
  have hfirst : ∀ x ∈ g.nodes, firstIndexPage ≠ x := fun x hx => (h.store.ne_first hx).symm
  by_cases hl0 : g.level l = 0
  · obtain ⟨L, hL, hEl, hCl, -⟩ := h.exists_leaf hl hl0
    obtain ⟨R, hR, hEr, hCr, -⟩ := h.exists_leaf hr (hlevel ▸ hl0)
    have hnext : R.nextBrother = bpInvalidPageNum ∨ R.nextBrother ∈ g.nodes ∧
        g.level R.nextBrother = 0 ∧ g.lo R.nextBrother = g.hi r := by
      have := h.tree.next r hr (hlevel ▸ hl0)
      simp only [view, hR, IndexPage.next] at this
      rcases this with ⟨-, hend⟩ | ⟨hmem, hlev, hlo, -⟩
      · exact Or.inl hend
      · exact Or.inr ⟨hmem, hlev, hlo⟩
    have hlt₁ := h.tree.lo_lt_hi l hl
    have hlt₂ := h.tree.lo_lt_hi r hr
    have hnext' : R.nextBrother ≠ bpInvalidPageNum → ∃ X, s.page R.nextBrother = .leaf X ∧
        R.nextBrother ≠ l ∧ R.nextBrother ≠ r := fun hne => by
      obtain ⟨hmem, hlev, hlo⟩ := hnext.resolve_left hne
      obtain ⟨X, hX, -⟩ := h.exists_leaf hmem hlev
      refine ⟨X, hX, fun heq => ?_, fun heq => ?_⟩
      · rw [heq] at hlo
        rw [hlo, hmeet] at hlt₁
        exact lt_asymm hlt₁ hlt₂
      · rw [heq] at hlo
        exact hlt₂.ne hlo
    obtain ⟨s', hexec, hbitmap, hcount, hpages⟩ : ∃ s', exec flat (coalesce again .leaf q p P index)
        header s = exec flat (again P) header s' ∧ _ :=
      exec_coalesce_leaf again hside hlP hrP hlr hN.page_eq hi hL hR hnext'
    have hstore : StoreInv header s' (g.nodes \ {r}) := by
      refine h.store.dispose hr hbitmap hcount ?_
      rw [hpages _ (hfirst r hr), if_neg (hfirst P hN.mem), if_neg (hfirst l hl), if_neg]
      rintro ⟨heq, hne⟩
      exact hfirst _ (hnext.resolve_left (heq ▸ hne)).1 heq
    have hagree : (view s').AgreesOn (g.nodes \ {r}) ((view s).merge P l r l₁ kl l₂) := by
      rintro x ⟨hx, hxr⟩
      have hpx := hpages x hxr
      have hx₀ : x ≠ bpInvalidPageNum := fun heq => by
        have := h.tree.nonneg x hx
        rw [heq, bpInvalidPageNum] at this
        omega
      have hrk : (view s).kind r = some .leaf := by simp [view, hR, IndexPage.kind]
      have hrn : (view s).next r = R.nextBrother := by simp [view, hR, IndexPage.next]
      by_cases hxP : x = P
      · subst hxP
        simp [view, View.merge, hpx, hremove, hN.page_eq, hlP.symm, hR, IndexPage.kind,
          IndexPage.parentPageNum, IndexPage.children, IndexPage.entries]
      · by_cases hxl : x = l
        · subst hxl
          have hxn : x ≠ R.nextBrother := fun heq => by
            obtain ⟨-, -, hne, -⟩ := hnext' (heq ▸ hx₀)
            exact hne heq.symm
          simp [view, View.merge, hpx, hL, hR, hlP, hxn, IndexPage.kind, IndexPage.parentPageNum,
            IndexPage.children, IndexPage.entries, IndexPage.next, IndexPage.prev]
        · by_cases hxn : x = R.nextBrother
          · obtain ⟨X, hX, -, -⟩ := hnext' (hxn ▸ hx₀)
            rw [if_neg hxP, if_neg hxl, if_pos ⟨hxn, hx₀⟩, hxn, hX] at hpx
            simp only [View.merge, hrk, hrn, hCr, if_true, List.map_nil, List.not_mem_nil, if_false,
              hxP, hxl]
            simp [view, hxn, hX, hpx, IndexPage.setPrev, IndexPage.kind, IndexPage.parentPageNum,
              IndexPage.children, IndexPage.entries, IndexPage.next, IndexPage.prev]
          · rw [if_neg hxP, if_neg hxl, if_neg (fun hand => hxn hand.1)] at hpx
            simp only [View.merge, hrk, hrn, hCr, if_true, List.map_nil, List.not_mem_nil, if_false,
              hxP, hxl, hxn]
            simp [view, hpx]
    obtain ⟨hinv, hholds⟩ := h.merge hp hN.mem hN.children hsum' hstore hagree
    refine ⟨s', g.merge l r, ?_, hinv, hholds, ⟨hN.mem, hrP.symm⟩, rfl⟩
    rw [levelKind, hpl, if_pos hl0, hexec]
  · obtain ⟨L, hL, hCl, hEl, -⟩ := h.exists_internal hl hl0
    obtain ⟨R, hR, hCr, hEr, -⟩ := h.exists_internal hr (hlevel ▸ hl0)
    have hlow : ∀ x ∈ R.items.map Prod.snd, x ∈ g.nodes ∧ g.level x + 1 = g.level r := fun x hx =>
      ⟨(h.tree.of_mem_children hr (hCr.symm ▸ hx)).1,
        (h.tree.of_mem_children hr (hCr.symm ▸ hx)).2.1⟩
    have hlR : l ∉ R.items.map Prod.snd := fun hmem => by have := (hlow l hmem).2; omega
    have hrR : r ∉ R.items.map Prod.snd := fun hmem => by have := (hlow r hmem).2; omega
    have hPR : P ∉ R.items.map Prod.snd := fun hmem => by have := (hlow P hmem).2; omega
    obtain ⟨s', hexec, hbitmap, hcount, hpages⟩ : ∃ s', exec flat
        (coalesce again .internal q p P index) header s = exec flat (again P) header s' ∧ _ :=
      exec_coalesce_internal again hside hlP hrP hlr hN.page_eq hi hL hR hlR hrR hPR
    have hstore : StoreInv header s' (g.nodes \ {r}) := by
      refine h.store.dispose hr hbitmap hcount ?_
      rw [hpages _ (hfirst r hr), if_neg (hfirst P hN.mem), if_neg (hfirst l hl), if_neg]
      exact fun hmem => hfirst _ (hlow _ hmem).1 rfl
    have hagree : (view s').AgreesOn (g.nodes \ {r}) ((view s).merge P l r l₁ kl l₂) := by
      rintro x ⟨hx, hxr⟩
      have hpx := hpages x hxr
      have hrk : ¬ (view s).kind r = some .leaf := by simp [view, hR, IndexPage.kind]
      by_cases hxP : x = P
      · subst hxP
        rw [if_pos rfl, hremove] at hpx
        simp only [View.merge, hrk, hCr, hPR, if_true, if_false, hlP.symm]
        simp [view, hpx, hN.page_eq, IndexPage.kind, IndexPage.parentPageNum, IndexPage.children,
          IndexPage.entries]
      · by_cases hxl : x = l
        · subst hxl
          rw [if_neg hxP, if_pos rfl] at hpx
          simp only [View.merge, hrk, hCr, hCl, hEl, hEr, hlR, if_true, if_false, hxP]
          simp [view, hpx, hL, IndexPage.kind, IndexPage.parentPageNum, IndexPage.children,
            IndexPage.entries]
        · rw [if_neg hxP, if_neg hxl] at hpx
          simp only [View.merge, hrk, hCr, if_false, hxP, hxl]
          by_cases hxR : x ∈ R.items.map Prod.snd
          · rw [if_pos hxR] at hpx
            simp [view, hpx, if_pos hxR, IndexPage.parent_setParent _ _ (h.kind_ne_none hx)]
          · rw [if_neg hxR] at hpx
            simp [view, hpx, if_neg hxR]
    obtain ⟨hinv, hholds⟩ := h.merge hp hN.mem hN.children hsum' hstore hagree
    refine ⟨s', g.merge l r, ?_, hinv, hholds, ⟨hN.mem, hrP.symm⟩, rfl⟩
    rw [levelKind, hpl, if_neg hl0, hexec]

end coalesce

end Miniob.Storage.Index
