import Miniob.Storage.Index.Invariant

/-!
# Descending the tree

`find_leaf_internal` goes down from the root along the children its argument chooses. If every
choice keeps a property of the node's interval, the leaf at the end has it:

* `find_leaf` ends at the leaf whose interval holds the key, which is the only leaf where the key
  can be (`TreeInv.unique`).
* `left_most_page` and `right_most_page` end at the leaves with the ends of the key space.
-/

namespace Miniob.Storage.Index

open Miniob.Lib
open Miniob.Storage.BufferPool (FlatPool flat)

variable {K B : Type} [LinearOrder B] [BoundedOrder B] {comparator : K → K → Int}
  {InTree : K → Prop} {pos : K → B} {header : IndexFileHeader} {s : FlatPool (IndexPage K)}
  {g : Ghost B} {p : Int} {key : K}

/-! ## Pages of nodes -/

section pages

variable {pending : Option (Int × Int)} {root : Int}

/-- The items of a leaf. -/
theorem NodeInv.exists_leaf (h : NodeInv InTree pos (view s) g root pending) (hp : p ∈ g.nodes)
    (hl : g.level p = 0) : ∃ n, s.page p = .leaf n ∧ (view s).entries p = n.items ∧
      (view s).children p = [] ∧ (view s).size p = n.items.length := by
  have hkind : (s.page p).kind = _ := h.kind_eq p hp
  rw [if_pos hl] at hkind
  obtain ⟨n, hn⟩ := IndexPage.exists_leaf hkind
  refine ⟨n, hn, ?_, ?_, ?_⟩ <;> simp [View.size, view, hn, IndexPage.entries, IndexPage.children]

/-- The items of an internal node. -/
theorem NodeInv.exists_internal (h : NodeInv InTree pos (view s) g root pending) (hp : p ∈ g.nodes)
    (hl : g.level p ≠ 0) : ∃ n, s.page p = .internal n ∧ (view s).children p = n.items ∧
      (view s).entries p = [] ∧ (view s).size p = n.items.length := by
  have hkind : (s.page p).kind = _ := h.kind_eq p hp
  rw [if_neg hl] at hkind
  obtain ⟨n, hn⟩ := IndexPage.exists_internal hkind
  refine ⟨n, hn, ?_, ?_, ?_⟩ <;> simp [View.size, view, hn, IndexPage.entries, IndexPage.children]

end pages

/-! ## The child a key belongs to -/

/-- The slot of an internal node whose cell holds a point, and the keys around it. -/
theorem NodeInv.exists_slot {v : View K} {root : Int} (h : NodeInv InTree pos v g root none)
    (hp : p ∈ g.nodes) (hl : g.level p ≠ 0) {x : B} (hlo : g.lo p ≤ x) (hhi : x < g.hi p) :
    ∃ l₁ k c l₂, v.children p = l₁ ++ (k, c) :: l₂ ∧ g.lo c ≤ x ∧ x < g.hi c ∧
      (∀ e ∈ l₁.tail, InTree e.1 ∧ pos e.1 < x) ∧ (l₁ ≠ [] → InTree k ∧ pos k ≤ x) ∧
      ∀ e ∈ l₂, InTree e.1 ∧ x < pos e.1 := by
  obtain ⟨m₁, c, m₂, hm, hlo', hhi'⟩ := cells_split (h.cells p hp hl) hlo hhi
  obtain ⟨l₁, t, hc, rfl, ht⟩ := List.map_eq_append_iff.mp hm
  obtain ⟨⟨k, c'⟩, l₂, rfl, rfl, rfl⟩ := List.map_eq_cons_iff.mp ht
  have hcells := h.cells p hp hl
  rw [hc, List.map_append, List.map_cons] at hcells
  refine ⟨l₁, k, c', l₂, hc, hlo', hhi', fun e he => ?_, fun hne => ?_, fun e he => ?_⟩
  · obtain ⟨hin, hpos⟩ := h.key_eq hp (e := e) (by
      rw [hc]
      rcases l₁ with _ | ⟨a, t⟩
      · simp at he
      · simpa using Or.inl he)
    have hb := cells_mem (cells_cut hcells).1
      (List.mem_map_of_mem (f := Prod.snd) (List.mem_of_mem_tail he))
    rw [hpos]
    exact ⟨hin, (hb.2.1.trans_le hb.2.2).trans_le hlo'⟩
  · obtain ⟨hin, hpos⟩ := h.key_eq hp (e := (k, c')) (by
      rw [hc, List.tail_append_of_ne_nil hne]
      simp)
    rw [hpos]
    exact ⟨hin, hlo'⟩
  · obtain ⟨hin, hpos⟩ := h.key_eq hp (e := e) (by
      rw [hc]
      rcases l₁ with _ | ⟨a, t⟩ <;> simp [he])
    rw [hpos]
    exact ⟨hin, hhi'.trans_le (cells_after hcells (List.mem_map_of_mem (f := Prod.snd) he))⟩

/-- The search in an internal node chooses the child whose cell holds the key. -/
theorem NodeInv.lookup_child {root : Int} (ho : KeyOrder comparator InTree pos)
    (h : NodeInv InTree pos (view s) g root none) (hp : p ∈ g.nodes) {n : InternalIndexNode K}
    (hn : s.page p = .internal n) (hl : g.level p ≠ 0) (hkey : InTree key) (hlo : g.lo p ≤ pos key)
    (hhi : pos key < g.hi p) :
    ∃ k c, n.items[(n.lookup comparator key).1]? = some (k, c) ∧ c ∈ g.nodes ∧
      g.level c + 1 = g.level p ∧ g.lo c ≤ pos key ∧ pos key < g.hi c := by
  obtain ⟨l₁, k, c, l₂, hc, hlo', hhi', h₁, hk, h₂⟩ := h.exists_slot hp hl hlo hhi
  have hitems : n.items = l₁ ++ (k, c) :: l₂ := by
    rw [← hc]
    simp [view, hn, IndexPage.children]
  obtain ⟨hmem, hlevel, -⟩ := h.of_mem_children hp (c := c) (by simp [hc])
  have hlookup := internal_lookup ho hkey n.parent c h₁ hk h₂
  rw [← hitems] at hlookup
  refine ⟨k, c, ?_, hmem, hlevel, hlo', hhi'⟩
  rw [hlookup, hitems]
  simp

/-! ## The loop -/

/-- The descent keeps what every choice keeps. By induction on the level. -/
theorem findLeafLoop_ok (h : NodeInv InTree pos (view s) g header.rootPage none)
    (getter : InternalIndexNode K → TreeM K Int) (Φ : Int → Prop)
    (hgetter : ∀ x ∈ g.nodes, ∀ n, s.page x = .internal n → g.level x ≠ 0 → Φ x →
      ∃ c ∈ g.nodes, g.level c + 1 = g.level x ∧ Φ c ∧
        exec flat (getter n) header s = some ((c, header), s))
    {fuel : ℕ} (hp : p ∈ g.nodes) (hfuel : g.level p < fuel) (hΦ : Φ p) :
    ∃ q ∈ g.nodes, g.level q = 0 ∧ Φ q ∧
      exec flat (findLeafLoop getter fuel p) header s = some (((.success, q), header), s) := by
  induction fuel generalizing p with
  | zero => omega
  | succ fuel ih =>
      by_cases hl : g.level p = 0
      · obtain ⟨n, hn, -⟩ := h.exists_leaf hp hl
        refine ⟨p, hp, hl, hΦ, ?_⟩
        simp [findLeafLoop, hn, IndexPage.isLeaf]
      · obtain ⟨n, hn, -⟩ := h.exists_internal hp hl
        obtain ⟨c, hc, hlevel, hΦc, hexec⟩ := hgetter p hp n hn hl hΦ
        obtain ⟨q, hq, hlq, hΦq, hrun⟩ := ih hc (by omega) hΦc
        refine ⟨q, hq, hlq, hΦq, ?_⟩
        simp [findLeafLoop, hn, IndexPage.isLeaf, hexec, hrun]

/-- The root page of a nonempty tree is a page. -/
theorem NodeInv.root_ne_invalid (h : NodeInv InTree pos (view s) g header.rootPage none) :
    header.rootPage ≠ bpInvalidPageNum := fun heq => by
  have := h.nonneg _ h.root_mem
  rw [heq, bpInvalidPageNum] at this
  omega

/-- `find_leaf` leads to the leaf whose interval holds the key. -/
theorem findLeaf_ok (ho : KeyOrder comparator InTree pos)
    (h : NodeInv InTree pos (view s) g header.rootPage none) (fuel : ℕ)
    (hfuel : g.level header.rootPage < fuel) (hkey : InTree key) :
    ∃ q ∈ g.nodes, g.level q = 0 ∧ (g.lo q ≤ pos key ∧ pos key < g.hi q) ∧
      exec flat (findLeaf comparator fuel key) header s = some (((.success, q), header), s) := by
  have hroot : g.lo header.rootPage ≤ pos key ∧ pos key < g.hi header.rootPage := by
    have hhi : g.hi header.rootPage = ⊤ := h.root_hi
    rw [h.root_lo, hhi]
    exact ⟨bot_le, ho.lt_top key hkey⟩
  obtain ⟨q, hq, hl, hΦ, hrun⟩ := findLeafLoop_ok h
    (fun n => valueAt n (n.lookup comparator key).1)
    (fun x => g.lo x ≤ pos key ∧ pos key < g.hi x) (fun x hx n hn hl hΦ => by
      obtain ⟨k, c, hget, hc, hlevel, hlo, hhi⟩ :=
        h.lookup_child ho hx hn hl hkey hΦ.1 hΦ.2
      exact ⟨c, hc, hlevel, ⟨hlo, hhi⟩, by simp [hget]⟩) h.root_mem hfuel hroot
  refine ⟨q, hq, hl, hΦ, ?_⟩
  simp [findLeaf, findLeafInternal, isEmpty, h.root_ne_invalid, hrun]

/-- `left_most_page` leads to the leaf with the lower end of the key space. -/
theorem leftMostPage_ok (h : NodeInv InTree pos (view s) g header.rootPage none) (fuel : ℕ)
    (hfuel : g.level header.rootPage < fuel) :
    ∃ q ∈ g.nodes, g.level q = 0 ∧ g.lo q = ⊥ ∧
      exec flat (leftMostPage fuel) header s = some (((.success, q), header), s) := by
  obtain ⟨q, hq, hl, hΦ, hrun⟩ := findLeafLoop_ok h (fun n => valueAt n 0)
    (fun x => g.lo x = ⊥) (fun x hx n hn hl hΦ => by
      have hcells := h.cells x hx hl
      rcases hc : (view s).children x with _ | ⟨e, cs⟩
      · rw [hc] at hcells
        exact absurd (h.lo_lt_hi x hx) hcells.not_lt
      · rw [hc, List.map_cons, cells_cons] at hcells
        obtain ⟨hmem, hlevel, -⟩ := h.of_mem_children hx (c := e.2) (by simp [hc])
        have hitems : n.items = e :: cs := by
          rw [← hc]
          simp [view, hn, IndexPage.children]
        exact ⟨e.2, hmem, hlevel, hcells.1.trans hΦ, by simp [hitems]⟩)
    h.root_mem hfuel h.root_lo
  refine ⟨q, hq, hl, hΦ, ?_⟩
  simp [leftMostPage, findLeafInternal, isEmpty, h.root_ne_invalid, hrun]

/-- `right_most_page` leads to the leaf with the upper end of the key space. -/
theorem rightMostPage_ok (h : NodeInv InTree pos (view s) g header.rootPage none) (fuel : ℕ)
    (hfuel : g.level header.rootPage < fuel) :
    ∃ q ∈ g.nodes, g.level q = 0 ∧ g.hi q = ⊤ ∧
      exec flat (rightMostPage fuel) header s = some (((.success, q), header), s) := by
  obtain ⟨q, hq, hl, hΦ, hrun⟩ := findLeafLoop_ok h (fun n => valueAt n (n.items.length - 1))
    (fun x => g.hi x = ⊤) (fun x hx n hn hl hΦ => by
      have hcells := h.cells x hx hl
      rcases List.eq_nil_or_concat ((view s).children x) with hc | ⟨cs, e, hc⟩
      · rw [hc] at hcells
        exact absurd (h.lo_lt_hi x hx) hcells.not_lt
      · rw [hc, List.concat_eq_append, List.map_append, List.map_singleton] at hcells
        obtain ⟨-, -, hhi⟩ := cells_cut hcells
        obtain ⟨hmem, hlevel, -⟩ := h.of_mem_children hx (c := e.2) (by simp [hc])
        have hitems : n.items = cs ++ [e] := by
          rw [← List.concat_eq_append, ← hc]
          simp [view, hn, IndexPage.children]
        exact ⟨e.2, hmem, hlevel, hhi.trans hΦ, by simp [hitems]⟩)
    h.root_mem hfuel h.root_hi
  refine ⟨q, hq, hl, hΦ, ?_⟩
  simp [rightMostPage, findLeafInternal, isEmpty, h.root_ne_invalid, hrun]

/-- On the empty tree every search reports `EMPTY`. -/
theorem findLeafInternal_empty {getter : InternalIndexNode K → TreeM K Int} {fuel : ℕ}
    (hempty : header.rootPage = bpInvalidPageNum) :
    exec flat (findLeafInternal fuel getter) header s =
      some (((.empty, bpInvalidPageNum), header), s) := by
  simp [findLeafInternal, isEmpty, hempty]

end Miniob.Storage.Index
