import Mathlib.Order.BoundedOrder.Basic
import Mathlib.Data.Set.Insert
import Miniob.Lib.Cells
import Miniob.Storage.Index.Node

/-!
# The shape of a B+ tree

What the pages of an index have to do with each other. A `View` reads the fields of every page; a
`Ghost` assigns to every node a level and the interval of keys it is responsible for. `TreeInv`
relates the two, page by page: the children of an internal node cut its interval into consecutive
cells, a key of an internal node is the lower bound of the child beside it (except along the left
edge, where it means nothing), the keys of a leaf lie in its interval, and the leaves are linked
in the order of their intervals.

The tree changes by six moves, each a function on views and one on ghosts, and each keeps
`TreeInv`:

* `setEntries`: other entries in a leaf.
* `split`: cut a node in two. The right part is *pending*: no parent lists it yet, and the parent
  still sees the two parts as one cell.
* `attach`, `newRoot`: enter the pending part into the parent, or put a root above both parts.
* `merge`: join two neighbours under one parent.
* `shrinkRoot`: drop a root with one child.

The handler's splits, merges and redistributions are compositions of these.
-/

namespace Miniob.Storage.Index

open Miniob.Lib

variable {K B : Type}

/-! ## Views and ghosts -/

/-- The fields of all pages of an index. -/
structure View (K : Type) where
  /-- Leaf or internal node; `none` for the header page. -/
  kind : Int → Option NodeKind
  /-- `parent` -/
  parent : Int → Int
  /-- The items of an internal node. -/
  children : Int → List (K × Int)
  /-- The items of a leaf. -/
  entries : Int → List (K × RID)
  /-- `next_brother` of a leaf -/
  next : Int → Int
  /-- `prev_brother` of a leaf -/
  prev : Int → Int

/-- The pages that are nodes, with their levels and intervals. -/
structure Ghost (B : Type) where
  /-- The nodes of the tree. -/
  nodes : Set Int
  /-- The distance of a node from the leaves. -/
  level : Int → ℕ
  /-- The lower end of a node's interval, which belongs to it. -/
  lo : Int → B
  /-- The upper end of a node's interval, which does not. -/
  hi : Int → B

/-- The upper end of a node's interval as its parent sees it: a node with a pending right part
still covers both. -/
def Ghost.parentHi (g : Ghost B) (pending : Option (Int × Int)) (x : Int) : B :=
  match pending with
  | none => g.hi x
  | some (p, q) => if x = p then g.hi q else g.hi x

@[simp] theorem Ghost.parentHi_none (g : Ghost B) (x : Int) : g.parentHi none x = g.hi x := rfl

@[simp] theorem Ghost.parentHi_some (g : Ghost B) (p q x : Int) :
    g.parentHi (some (p, q)) x = if x = p then g.hi q else g.hi x := rfl

variable [LinearOrder B] [BoundedOrder B]

/-- Two views agree on a set of pages. -/
def View.AgreesOn (nodes : Set Int) (v w : View K) : Prop :=
  ∀ x ∈ nodes, v.kind x = w.kind x ∧ v.parent x = w.parent x ∧ v.children x = w.children x ∧
    v.entries x = w.entries x ∧
    (w.kind x = some .leaf → v.next x = w.next x ∧ v.prev x = w.prev x)

/-- The leaves are linked in the order of their intervals. -/
structure LinkInv (v : View K) (g : Ghost B) : Prop where
  /-- The next leaf starts where this one ends. -/
  next : ∀ p ∈ g.nodes, g.level p = 0 → g.hi p = ⊤ ∧ v.next p = bpInvalidPageNum ∨
    v.next p ∈ g.nodes ∧ g.level (v.next p) = 0 ∧ g.lo (v.next p) = g.hi p ∧ v.prev (v.next p) = p
  /-- The leaf before ends where this one starts. -/
  prev : ∀ p ∈ g.nodes, g.level p = 0 → g.lo p = ⊥ ∧ v.prev p = bpInvalidPageNum ∨
    v.prev p ∈ g.nodes ∧ g.level (v.prev p) = 0 ∧ g.hi (v.prev p) = g.lo p ∧ v.next (v.prev p) = p

/-- The entries of the leaves. `InTree` says which keys may occur and `pos` places them between
the bounds of the intervals. -/
structure EntryInv (InTree : K → Prop) (pos : K → B) (v : View K) (g : Ghost B) : Prop where
  /-- An internal node has no entries. -/
  internal_entries : ∀ p ∈ g.nodes, g.level p ≠ 0 → v.entries p = []
  /-- Leaf entries are sorted. -/
  sorted : ∀ p ∈ g.nodes, (v.entries p).Pairwise fun e f => pos e.1 < pos f.1
  /-- Leaf entries lie in the leaf's interval. -/
  entry : ∀ p ∈ g.nodes, ∀ e ∈ v.entries p, InTree e.1 ∧ g.lo p ≤ pos e.1 ∧ pos e.1 < g.hi p

/-- The nodes and how they refer to each other. -/
structure NodeInv (InTree : K → Prop) (pos : K → B) (v : View K) (g : Ghost B) (root : Int)
    (pending : Option (Int × Int)) : Prop where
  /-- The root is a node. -/
  root_mem : root ∈ g.nodes
  /-- The root has no parent. -/
  root_parent : v.parent root = bpInvalidPageNum
  /-- The root covers everything from below. -/
  root_lo : g.lo root = ⊥
  /-- The root covers everything to the top. -/
  root_hi : g.parentHi pending root = ⊤
  /-- Page numbers are not negative. -/
  nonneg : ∀ p ∈ g.nodes, 0 ≤ p
  /-- The root is at the top. -/
  level_le : ∀ p ∈ g.nodes, g.level p ≤ g.level root
  /-- Intervals are not empty. -/
  lo_lt_hi : ∀ p ∈ g.nodes, g.lo p < g.hi p
  /-- The leaves are at level 0. -/
  kind_eq : ∀ p ∈ g.nodes, v.kind p = some (if g.level p = 0 then .leaf else .internal)
  /-- A leaf has no children. -/
  leaf_children : ∀ p ∈ g.nodes, g.level p = 0 → v.children p = []
  /-- The children of a node cut its interval into cells. -/
  cells : ∀ p ∈ g.nodes, g.level p ≠ 0 →
    Cells g.lo (g.parentHi pending) (g.lo p) (g.hi p) ((v.children p).map Prod.snd)
  /-- A child is a node one level below, knows its parent, and starts at the key beside it. -/
  child : ∀ p ∈ g.nodes, ∀ e ∈ v.children p, e.2 ∈ g.nodes ∧ g.level e.2 + 1 = g.level p ∧
    v.parent e.2 = p ∧ (g.lo e.2 = ⊥ ∨ InTree e.1 ∧ pos e.1 = g.lo e.2)
  /-- A node that is neither the root nor pending is listed by its parent. -/
  up : ∀ p ∈ g.nodes, p ≠ root → (∀ a b, pending = some (a, b) → p ≠ b) →
    v.parent p ∈ g.nodes ∧ p ∈ (v.children (v.parent p)).map Prod.snd
  /-- The pending part follows its left part and is nobody's child. -/
  pending_ok : ∀ p q, pending = some (p, q) → p ∈ g.nodes ∧ q ∈ g.nodes ∧ p ≠ q ∧ q ≠ root ∧
    g.level p = g.level q ∧ g.hi p = g.lo q ∧
    ∀ x ∈ g.nodes, q ∉ (v.children x).map Prod.snd

/-- **The shape invariant.** -/
structure TreeInv (InTree : K → Prop) (pos : K → B) (v : View K) (g : Ghost B) (root : Int)
    (pending : Option (Int × Int)) : Prop
    extends NodeInv InTree pos v g root pending, EntryInv InTree pos v g, LinkInv v g

/-! ## Consequences -/

variable {InTree : K → Prop} {pos : K → B} {v w : View K} {g : Ghost B} {root : Int}
  {pending : Option (Int × Int)} {p q r c x P : Int} {y m : B}

namespace NodeInv

/-- A child is a node one level below that knows its parent. -/
theorem of_mem_children (h : NodeInv InTree pos v g root pending) (hp : p ∈ g.nodes)
    (hc : c ∈ (v.children p).map Prod.snd) :
    c ∈ g.nodes ∧ g.level c + 1 = g.level p ∧ v.parent c = p := by
  obtain ⟨e, he, rfl⟩ := List.mem_map.mp hc
  obtain ⟨hmem, hlevel, hparent, -⟩ := h.child p hp e he
  exact ⟨hmem, hlevel, hparent⟩

/-- Only internal nodes have children. -/
theorem level_ne_zero (h : NodeInv InTree pos v g root pending) (hp : p ∈ g.nodes)
    (hc : c ∈ (v.children p).map Prod.snd) : g.level p ≠ 0 := by
  have := (h.of_mem_children hp hc).2.1
  omega

/-- The root is nobody's child. -/
theorem ne_root_of_mem_children (h : NodeInv InTree pos v g root pending) (hp : p ∈ g.nodes)
    (hc : c ∈ (v.children p).map Prod.snd) : c ≠ root := by
  rintro rfl
  have hparent := (h.of_mem_children hp hc).2.2
  have hp0 := h.nonneg p hp
  rw [h.root_parent, bpInvalidPageNum] at hparent
  omega

/-- No child is listed twice. -/
theorem nodup_children (h : NodeInv InTree pos v g root pending) (hp : p ∈ g.nodes) :
    ((v.children p).map Prod.snd).Nodup := by
  by_cases hlevel : g.level p = 0
  · simp [h.leaf_children p hp hlevel]
  · exact cells_nodup (h.cells p hp hlevel)

/-- Every other node is below the root. -/
theorem level_lt (h : NodeInv InTree pos v g root none) (hp : p ∈ g.nodes) (hroot : p ≠ root) :
    g.level p < g.level root := by
  obtain ⟨hmem, hlist⟩ := h.up p hp hroot (by simp)
  have hlevel := (h.of_mem_children hmem hlist).2.1
  have hle := h.level_le _ hmem
  omega

/-- A point lies in one node of each level only. -/
theorem unique (h : NodeInv InTree pos v g root none) (hp : p ∈ g.nodes) (hq : q ∈ g.nodes)
    (hlevel : g.level p = g.level q) (hp₁ : g.lo p ≤ y) (hp₂ : y < g.hi p) (hq₁ : g.lo q ≤ y)
    (hq₂ : y < g.hi q) : p = q := by
  -- by induction on the distance from the root: the parents agree, and then the cells do
  obtain ⟨n, hn⟩ : ∃ n, g.level p + n = g.level root :=
    ⟨_, Nat.add_sub_cancel' (h.level_le p hp)⟩
  induction n generalizing p q with
  | zero =>
      have top : ∀ z ∈ g.nodes, g.level z = g.level root → z = root := by
        intro z hz hzl
        by_contra hzr
        exact absurd hzl (h.level_lt hz hzr).ne
      rw [top p hp (by omega), top q hq (by omega)]
  | succ n ih =>
      have hpr : p ≠ root := by rintro rfl; omega
      have hqr : q ≠ root := by rintro rfl; omega
      obtain ⟨hP, hpP⟩ := h.up p hp hpr (by simp)
      obtain ⟨hQ, hqQ⟩ := h.up q hq hqr (by simp)
      have hlP := (h.of_mem_children hP hpP).2.1
      have hlQ := (h.of_mem_children hQ hqQ).2.1
      have hcP := h.cells _ hP (by omega)
      have hcQ := h.cells _ hQ (by omega)
      have hbP := cells_mem hcP hpP
      have hbQ := cells_mem hcQ hqQ
      have hPQ : v.parent p = v.parent q :=
        ih hP hQ (by omega) (hbP.1.trans hp₁) (hp₂.trans_le hbP.2.2) (hbQ.1.trans hq₁)
          (hq₂.trans_le hbQ.2.2) (by omega)
      rw [← hPQ] at hqQ
      exact cells_unique hcP hpP hqQ hp₁ hp₂ hq₁ hq₂

end NodeInv

/-- The invariant only looks at the nodes. -/
theorem TreeInv.congr (h : TreeInv InTree pos w g root pending) (hvw : v.AgreesOn g.nodes w) :
    TreeInv InTree pos v g root pending := by
  have hkind : ∀ x ∈ g.nodes, g.level x = 0 → w.kind x = some .leaf := fun x hx hx0 => by
    rw [h.kind_eq x hx, if_pos hx0]
  refine
    { root_mem := h.root_mem
      root_parent := by rw [(hvw root h.root_mem).2.1, h.root_parent]
      root_lo := h.root_lo
      root_hi := h.root_hi
      nonneg := h.nonneg
      level_le := h.level_le
      lo_lt_hi := h.lo_lt_hi
      kind_eq := fun p hp => by rw [(hvw p hp).1, h.kind_eq p hp]
      leaf_children := fun p hp hl => by rw [(hvw p hp).2.2.1, h.leaf_children p hp hl]
      internal_entries := fun p hp hl => by
        rw [(hvw p hp).2.2.2.1, h.internal_entries p hp hl]
      cells := fun p hp hl => by rw [(hvw p hp).2.2.1]; exact h.cells p hp hl
      child := fun p hp e he => ?_
      up := fun p hp hroot hpend => ?_
      sorted := fun p hp => by rw [(hvw p hp).2.2.2.1]; exact h.sorted p hp
      entry := fun p hp => by rw [(hvw p hp).2.2.2.1]; exact h.entry p hp
      next := fun p hp hl => ?_
      prev := fun p hp hl => ?_
      pending_ok := fun p q hpq => ?_ }
  · rw [(hvw p hp).2.2.1] at he
    obtain ⟨hmem, hlevel, hparent, hkey⟩ := h.child p hp e he
    exact ⟨hmem, hlevel, by rw [(hvw _ hmem).2.1, hparent], hkey⟩
  · obtain ⟨hmem, hlist⟩ := h.up p hp hroot hpend
    rw [(hvw p hp).2.1, (hvw _ hmem).2.2.1]
    exact ⟨hmem, hlist⟩
  · obtain ⟨hp', hq, hne, hroot, hlevel, hhi, horphan⟩ := h.pending_ok p q hpq
    refine ⟨hp', hq, hne, hroot, hlevel, hhi, fun x hx => ?_⟩
    rw [(hvw x hx).2.2.1]
    exact horphan x hx
  · rw [((hvw p hp).2.2.2.2 (hkind p hp hl)).1]
    rcases h.next p hp hl with hend | ⟨hmem, hl', hlo, hprev⟩
    · exact Or.inl hend
    · exact Or.inr ⟨hmem, hl', hlo, by rw [((hvw _ hmem).2.2.2.2 (hkind _ hmem hl')).2, hprev]⟩
  · rw [((hvw p hp).2.2.2.2 (hkind p hp hl)).2]
    rcases h.prev p hp hl with hend | ⟨hmem, hl', hlo, hnext⟩
    · exact Or.inl hend
    · exact Or.inr ⟨hmem, hl', hlo, by rw [((hvw _ hmem).2.2.2.2 (hkind _ hmem hl')).1, hnext]⟩

/-! ## A single leaf -/

/-- The only node `r` covers everything. -/
def Ghost.single (r : Int) : Ghost B := ⟨{r}, fun _ => 0, fun _ => ⊥, fun _ => ⊤⟩

/-- A leaf without parent and brothers is a tree. -/
theorem TreeInv.single (hbot : (⊥ : B) < ⊤) (hr : 0 ≤ r) (hkind : v.kind r = some .leaf)
    (hparent : v.parent r = bpInvalidPageNum) (hchildren : v.children r = [])
    (hnext : v.next r = bpInvalidPageNum) (hprev : v.prev r = bpInvalidPageNum)
    (hsorted : (v.entries r).Pairwise fun e f => pos e.1 < pos f.1)
    (hentry : ∀ e ∈ v.entries r, InTree e.1 ∧ pos e.1 < ⊤) :
    TreeInv InTree pos v (Ghost.single r) r none := by
  refine ⟨⟨rfl, hparent, rfl, rfl, ?_, ?_, ?_, ?_, ?_, ?_, ?_, ?_, by simp⟩, ⟨?_, ?_, ?_⟩, ⟨?_, ?_⟩⟩
  · rintro x rfl
    exact hr
  · exact fun _ _ => le_rfl
  · exact fun _ _ => hbot
  · rintro x rfl
    exact hkind
  · rintro x rfl _
    exact hchildren
  · exact fun _ _ hl => absurd rfl hl
  · rintro x rfl e he
    rw [hchildren] at he
    cases he
  · exact fun x hx hxr => absurd hx hxr
  · exact fun _ _ hl => absurd rfl hl
  · rintro x rfl
    exact hsorted
  · rintro x rfl e he
    exact ⟨(hentry e he).1, bot_le, (hentry e he).2⟩
  · rintro x rfl _
    exact Or.inl ⟨rfl, hnext⟩
  · rintro x rfl _
    exact Or.inl ⟨rfl, hprev⟩

/-! ## Other entries in a leaf -/

/-- Put other entries in the leaf `p`. -/
def View.setEntries (v : View K) (p : Int) (E : List (K × RID)) : View K :=
  { v with entries := fun x => if x = p then E else v.entries x }

/-- Sorted entries in the leaf's interval keep the invariant. -/
theorem TreeInv.setEntries (h : TreeInv InTree pos v g root none) (hp : p ∈ g.nodes)
    (hleaf : g.level p = 0) {E : List (K × RID)} (hsorted : E.Pairwise fun e f => pos e.1 < pos f.1)
    (hentry : ∀ e ∈ E, InTree e.1 ∧ g.lo p ≤ pos e.1 ∧ pos e.1 < g.hi p) :
    TreeInv InTree pos (v.setEntries p E) g root none := by
  refine ⟨⟨h.root_mem, h.root_parent, h.root_lo, h.root_hi, h.nonneg, h.level_le, h.lo_lt_hi,
    h.kind_eq, h.leaf_children, h.cells, h.child, h.up, h.pending_ok⟩, ⟨?_, ?_, ?_⟩,
    ⟨h.next, h.prev⟩⟩
  · intro x hx hl
    have hxp : x ≠ p := by rintro rfl; exact hl hleaf
    simpa only [View.setEntries, if_neg hxp] using h.internal_entries x hx hl
  · intro x hx
    simp only [View.setEntries]
    split
    · exact hsorted
    · exact h.sorted x hx
  · intro x hx e he
    simp only [View.setEntries] at he
    split at he
    next hxp => exact hxp ▸ hentry e he
    next => exact h.entry x hx e he

/-! ## Splitting a node -/

/-- Cut the node `p` into `p` and the new node `q`: children and entries are distributed, the
children that move get the parent `q`, and a leaf `q` is linked after `p`. -/
def View.split (v : View K) (p q : Int) (C₁ C₂ : List (K × Int)) (E₁ E₂ : List (K × RID)) :
    View K where
  kind x := if x = q then v.kind p else v.kind x
  parent x :=
    if x = q then v.parent p else if x ∈ C₂.map Prod.snd then q else v.parent x
  children x := if x = q then C₂ else if x = p then C₁ else v.children x
  entries x := if x = q then E₂ else if x = p then E₁ else v.entries x
  next x :=
    if v.kind p = some .leaf then if x = q then v.next p else if x = p then q else v.next x
    else v.next x
  prev x :=
    if v.kind p = some .leaf then if x = q then p else if x = v.next p then q else v.prev x
    else v.prev x

/-- The right part `q` takes the interval from `m` on. -/
def Ghost.split (g : Ghost B) (p q : Int) (m : B) : Ghost B where
  nodes := insert q g.nodes
  level x := if x = q then g.level p else g.level x
  lo x := if x = q then m else g.lo x
  hi x := if x = q then g.hi p else if x = p then m else g.hi x

section split

variable {C₁ C₂ : List (K × Int)} {E₁ E₂ : List (K × RID)}

omit [LinearOrder B] [BoundedOrder B] in
/-- Seen from the parents, a split changes nothing. -/
theorem Ghost.parentHi_split (hx : x ≠ q) : (g.split p q m).parentHi (some (p, q)) x = g.hi x := by
  rw [parentHi_some]
  simp only [Ghost.split, if_true, if_neg hx]
  split
  next hxp => rw [hxp]
  next => rfl

/-- The leaves after a split: `q` comes right after `p`. -/
theorem LinkInv.split (h : LinkInv v g) (hp : p ∈ g.nodes) (hq : q ∉ g.nodes)
    (hkind : v.kind p = some .leaf ↔ g.level p = 0) (hnonneg : ∀ x ∈ g.nodes, 0 ≤ x) :
    LinkInv (v.split p q C₁ C₂ E₁ E₂) (g.split p q m) := by
  have hinvalid : bpInvalidPageNum ∉ g.nodes := fun hmem => absurd (hnonneg _ hmem) (by decide)
  by_cases hleaf : g.level p = 0
  · have hpk := hkind.mpr hleaf
    have hpn := h.next p hp hleaf
    constructor
    · rintro x (rfl | hx) hl
      · simp only [View.split, Ghost.split, if_pos hpk, Set.mem_insert_iff]
        grind
      · have hxn := h.next x hx
        simp only [View.split, Ghost.split, if_pos hpk, Set.mem_insert_iff] at hl ⊢
        grind
    · rintro x (rfl | hx) hl
      · simp only [View.split, Ghost.split, if_pos hpk, Set.mem_insert_iff]
        grind
      · have hxn := h.prev x hx
        simp only [View.split, Ghost.split, if_pos hpk, Set.mem_insert_iff] at hl ⊢
        grind
  · -- an internal node has no links
    have hpk : ¬ v.kind p = some .leaf := fun hk => hleaf (hkind.mp hk)
    constructor
    · rintro x (rfl | hx) hl
      · simp only [Ghost.split, if_true] at hl
        exact absurd hl hleaf
      · have hxn := h.next x hx
        simp only [View.split, Ghost.split, if_neg hpk, Set.mem_insert_iff] at hl ⊢
        grind
    · rintro x (rfl | hx) hl
      · simp only [Ghost.split, if_true] at hl
        exact absurd hl hleaf
      · have hxn := h.prev x hx
        simp only [View.split, Ghost.split, if_neg hpk, Set.mem_insert_iff] at hl ⊢
        grind

omit [BoundedOrder B] in
/-- The entries after a split lie below and above the cut. -/
theorem EntryInv.split (h : EntryInv InTree pos v g) (hp : p ∈ g.nodes) (hq : q ∉ g.nodes)
    (hE : v.entries p = E₁ ++ E₂) (hE₁ : ∀ e ∈ E₁, pos e.1 < m) (hE₂ : ∀ e ∈ E₂, m ≤ pos e.1) :
    EntryInv InTree pos (v.split p q C₁ C₂ E₁ E₂) (g.split p q m) := by
  have hne : ∀ {x}, x ∈ g.nodes → x ≠ q := fun hx hxq => hq (hxq ▸ hx)
  constructor
  · have hnil := h.internal_entries p hp
    rw [hE, List.append_eq_nil_iff] at hnil
    rintro x (rfl | hx) hl
    · simp only [Ghost.split, if_true] at hl
      simpa only [View.split, if_true] using (hnil hl).2
    · simp only [Ghost.split, if_neg (hne hx)] at hl
      simp only [View.split, if_neg (hne hx)]
      split
      next hxp => exact (hnil (hxp ▸ hl)).1
      next => exact h.internal_entries x hx hl
  · have hsorted := h.sorted p hp
    rw [hE, List.pairwise_append] at hsorted
    rintro x (rfl | hx)
    · simpa only [View.split, if_true] using hsorted.2.1
    · simp only [View.split, if_neg (hne hx)]
      split
      next => exact hsorted.1
      next => exact h.sorted x hx
  · rintro x (rfl | hx) e he
    · simp only [View.split, if_true] at he
      obtain ⟨hin, -, hhi⟩ := h.entry p hp e (hE ▸ List.mem_append_right _ he)
      simp only [Ghost.split, if_true]
      exact ⟨hin, hE₂ e he, hhi⟩
    · simp only [View.split, if_neg (hne hx)] at he
      simp only [Ghost.split, if_neg (hne hx)]
      by_cases hxp : x = p
      · subst hxp
        rw [if_pos rfl] at he ⊢
        obtain ⟨hin, hlo, -⟩ := h.entry x hx e (hE ▸ List.mem_append_left _ he)
        exact ⟨hin, hlo, hE₁ e he⟩
      · rw [if_neg hxp] at he ⊢
        exact h.entry x hx e he

/-- The nodes after a split: the children of the two parts are the two halves of the cells. -/
theorem NodeInv.split (h : NodeInv InTree pos v g root none) (hp : p ∈ g.nodes)
    (hq : q ∉ g.nodes) (hq₀ : 0 ≤ q) (hpm : g.lo p < m) (hmp : m < g.hi p)
    (hC : v.children p = C₁ ++ C₂) (hcells : g.level p ≠ 0 →
      Cells g.lo g.hi (g.lo p) m (C₁.map Prod.snd) ∧
      Cells g.lo g.hi m (g.hi p) (C₂.map Prod.snd)) :
    NodeInv InTree pos (v.split p q C₁ C₂ E₁ E₂) (g.split p q m) root (some (p, q)) := by
  have hne : ∀ {x}, x ∈ g.nodes → x ≠ q := fun hx hxq => hq (hxq ▸ hx)
  have hpq := hne hp
  have hmem₁ : ∀ {c}, c ∈ C₁.map Prod.snd → c ∈ (v.children p).map Prod.snd := fun hc => by
    rw [hC, List.map_append]; exact List.mem_append_left _ hc
  have hmem₂ : ∀ {c}, c ∈ C₂.map Prod.snd → c ∈ (v.children p).map Prod.snd := fun hc => by
    rw [hC, List.map_append]; exact List.mem_append_right _ hc
  have hparent : ∀ {x}, x ≠ q → x ∉ C₂.map Prod.snd →
      (v.split p q C₁ C₂ E₁ E₂).parent x = v.parent x := fun hx hx₂ => by
    simp only [View.split, if_neg hx, if_neg hx₂]
  have hlo : ∀ {x}, x ∈ g.nodes → (g.split p q m).lo x = g.lo x := fun hx => by
    simp only [Ghost.split, if_neg (hne hx)]
  have hlevel : ∀ {x}, x ∈ g.nodes → (g.split p q m).level x = g.level x := fun hx => by
    simp only [Ghost.split, if_neg (hne hx)]
  have hlevelq : (g.split p q m).level q = g.level p := by simp only [Ghost.split, if_true]
  refine
    { root_mem := Set.mem_insert_of_mem _ h.root_mem
      root_parent := ?_
      root_lo := by rw [hlo h.root_mem, h.root_lo]
      root_hi := by rw [Ghost.parentHi_split (hne h.root_mem)]; exact h.root_hi
      nonneg := ?_, level_le := ?_, lo_lt_hi := ?_, kind_eq := ?_, leaf_children := ?_
      cells := ?_, child := ?_, up := ?_, pending_ok := ?_ }
  · rw [hparent (hne h.root_mem) fun hr => h.ne_root_of_mem_children hp (hmem₂ hr) rfl,
      h.root_parent]
  · rintro x (rfl | hx)
    · exact hq₀
    · exact h.nonneg x hx
  · rintro x (rfl | hx)
    · rw [hlevel h.root_mem, hlevelq]
      exact h.level_le p hp
    · rw [hlevel h.root_mem, hlevel hx]
      exact h.level_le x hx
  · rintro x (rfl | hx)
    · simpa only [Ghost.split, if_true] using hmp
    · rw [hlo hx]
      simp only [Ghost.split, if_neg (hne hx)]
      split
      next hxp => exact hxp ▸ hpm
      next => exact h.lo_lt_hi x hx
  · rintro x (rfl | hx)
    · rw [hlevelq]
      simpa only [View.split, if_true] using h.kind_eq p hp
    · rw [hlevel hx]
      simpa only [View.split, if_neg (hne hx)] using h.kind_eq x hx
  · have hnil := h.leaf_children p hp
    rw [hC, List.append_eq_nil_iff] at hnil
    rintro x (rfl | hx) hl
    · rw [hlevelq] at hl
      simpa only [View.split, if_true] using (hnil hl).2
    · rw [hlevel hx] at hl
      simp only [View.split, if_neg (hne hx)]
      split
      next hxp => exact (hnil (hxp ▸ hl)).1
      next => exact h.leaf_children x hx hl
  · -- the cells of the two parts are those of the cut, the others stay
    have hold : ∀ {a b : B} {cs : List Int}, (∀ c ∈ cs, c ∈ g.nodes) →
        Cells g.lo g.hi a b cs →
        Cells (g.split p q m).lo ((g.split p q m).parentHi (some (p, q))) a b cs :=
      fun hcs hc => (cells_congr (fun c hc' => hlo (hcs c hc'))
        fun c hc' => Ghost.parentHi_split (hne (hcs c hc'))).mpr hc
    rintro x (rfl | hx) hl
    · rw [hlevelq] at hl
      have hcs := hold (fun c hc => (h.of_mem_children hp (hmem₂ hc)).1) (hcells hl).2
      simpa only [Ghost.split, View.split, if_true] using hcs
    · rw [hlevel hx] at hl
      rw [hlo hx]
      by_cases hxp : x = p
      · subst hxp
        have hcs := hold (fun c hc => (h.of_mem_children hp (hmem₁ hc)).1) (hcells hl).1
        simpa only [Ghost.split, View.split, if_true, if_neg hpq] using hcs
      · have hcs := hold (fun c hc => (h.of_mem_children hx hc).1) (h.cells x hx hl)
        simpa only [Ghost.split, View.split, if_neg hxp, if_neg (hne hx)] using hcs
  · rintro x (rfl | hx) e he
    · simp only [View.split, if_true] at he
      obtain ⟨hmem, hl, -, hkey⟩ := h.child p hp e (hC ▸ List.mem_append_right _ he)
      refine ⟨Set.mem_insert_of_mem _ hmem, by rw [hlevel hmem, hlevelq, hl], ?_, by rwa [hlo hmem]⟩
      simp only [View.split, if_neg (hne hmem), if_pos (List.mem_map_of_mem (f := Prod.snd) he)]
    · have he' : e ∈ v.children x := by
        simp only [View.split, if_neg (hne hx)] at he
        split at he
        next hxp => exact hxp ▸ hC ▸ List.mem_append_left _ he
        next => exact he
      obtain ⟨hmem, hl, hpar, hkey⟩ := h.child x hx e he'
      refine ⟨Set.mem_insert_of_mem _ hmem, by rw [hlevel hmem, hlevel hx, hl], ?_,
        by rwa [hlo hmem]⟩
      rw [hparent (hne hmem) ?_, hpar]
      intro he₂
      -- a child that moved was a child of `p`, and it is not also in the part that stayed
      have hxp : x = p := by rw [← hpar, (h.of_mem_children hp (hmem₂ he₂)).2.2]
      subst hxp
      have hnodup := h.nodup_children hp
      rw [hC, List.map_append, List.nodup_append] at hnodup
      simp only [View.split, if_neg hpq, if_true] at he
      exact hnodup.2.2 _ (List.mem_map_of_mem (f := Prod.snd) he) _ he₂ rfl
  · rintro x (rfl | hx) hroot hpend
    · exact absurd rfl (hpend p x rfl)
    · by_cases hx₂ : x ∈ C₂.map Prod.snd
      · simp only [View.split, if_neg (hne hx), if_pos hx₂, if_true]
        exact ⟨Set.mem_insert _ _, hx₂⟩
      · rw [hparent (hne hx) hx₂]
        obtain ⟨hmem, hlist⟩ := h.up x hx hroot (by simp)
        refine ⟨Set.mem_insert_of_mem _ hmem, ?_⟩
        simp only [View.split, if_neg (hne hmem)]
        split
        next hpar =>
          rw [hpar, hC, List.map_append, List.mem_append] at hlist
          exact hlist.resolve_right hx₂
        next => exact hlist
  · rintro a b hab
    obtain ⟨rfl, rfl⟩ : p = a ∧ q = b := by simpa using hab
    refine ⟨Set.mem_insert_of_mem _ hp, Set.mem_insert _ _, hpq, (hne h.root_mem).symm,
      by rw [hlevelq, hlevel hp], by simp only [Ghost.split, if_true, if_neg hpq], ?_⟩
    rintro x (rfl | hx) hmem
    · simp only [View.split, if_true] at hmem
      exact hq (h.of_mem_children hp (hmem₂ hmem)).1
    · simp only [View.split, if_neg (hne hx)] at hmem
      split at hmem
      next => exact hq (h.of_mem_children hp (hmem₁ hmem)).1
      next => exact hq (h.of_mem_children hx hmem).1

/-- A split leaves the right part pending. -/
theorem TreeInv.split (h : TreeInv InTree pos v g root none) (hp : p ∈ g.nodes)
    (hq : q ∉ g.nodes) (hq₀ : 0 ≤ q) (hpm : g.lo p < m) (hmp : m < g.hi p)
    (hC : v.children p = C₁ ++ C₂) (hE : v.entries p = E₁ ++ E₂)
    (hcells : g.level p ≠ 0 → Cells g.lo g.hi (g.lo p) m (C₁.map Prod.snd) ∧
      Cells g.lo g.hi m (g.hi p) (C₂.map Prod.snd))
    (hE₁ : ∀ e ∈ E₁, pos e.1 < m) (hE₂ : ∀ e ∈ E₂, m ≤ pos e.1) :
    TreeInv InTree pos (v.split p q C₁ C₂ E₁ E₂) (g.split p q m) root (some (p, q)) := by
  refine ⟨h.toNodeInv.split hp hq hq₀ hpm hmp hC hcells,
    h.toEntryInv.split hp hq hE hE₁ hE₂, h.toLinkInv.split hp hq ?_ h.nonneg⟩
  rw [h.kind_eq p hp]
  split <;> simp [*]

end split

/-! ## Entering the pending part -/

/-- List the pending part `q` in the parent `P`, right after its left part `p`. -/
def View.attach (v : View K) (P p q : Int) (l₁ : List (K × Int)) (kp k : K) (l₂ : List (K × Int)) :
    View K :=
  { v with
    parent := fun x => if x = q then P else v.parent x
    children := fun x => if x = P then l₁ ++ (kp, p) :: (k, q) :: l₂ else v.children x }

/-- Once the parent lists it, nothing is pending. -/
theorem TreeInv.attach (h : TreeInv InTree pos v g root (some (p, q))) (hroot : p ≠ root)
    {l₁ l₂ : List (K × Int)} {kp k : K} (hP : v.children (v.parent p) = l₁ ++ (kp, p) :: l₂)
    (hk : InTree k) (hkq : pos k = g.lo q) :
    TreeInv InTree pos (v.attach (v.parent p) p q l₁ kp k l₂) g root none := by
  obtain ⟨hp, hq, hpq, hqroot, hlevel, hhi, horphan⟩ := h.pending_ok p q rfl
  obtain ⟨hPmem, hpP⟩ := h.up p hp hroot (by rintro a b hab; simp at hab; rw [← hab.2]; exact hpq)
  have hPl := (h.of_mem_children hPmem hpP).2.1
  have hPp : v.parent p ≠ p := fun heq => by rw [heq] at hPl; omega
  have hPq : v.parent p ≠ q := fun heq => by rw [heq] at hPl; omega
  have hcells := h.cells _ hPmem (by omega)
  rw [hP, List.map_append, List.map_cons] at hcells
  obtain ⟨hc₁, -, hc₂⟩ := cells_cut hcells
  have hnodup := cells_nodup hcells
  rw [List.nodup_append, List.nodup_cons] at hnodup
  -- the bounds seen by the parents differ from the true ones at `p` only
  have hsame : ∀ {a b : B} {cs : List Int}, p ∉ cs → Cells g.lo (g.parentHi (some (p, q))) a b cs →
      Cells g.lo (g.parentHi none) a b cs := fun hcs hc =>
    (cells_congr (fun _ _ => rfl) fun c hc' => by
      have hcp : c ≠ p := fun heq => hcs (heq ▸ hc')
      rw [Ghost.parentHi_some, if_neg hcp, Ghost.parentHi_none]).mpr hc
  refine ⟨⟨h.root_mem, ?_, h.root_lo, ?_, h.nonneg, h.level_le, h.lo_lt_hi, h.kind_eq, ?_, ?_, ?_,
    ?_, by simp⟩, ⟨h.internal_entries, h.sorted, h.entry⟩, ⟨h.next, h.prev⟩⟩
  · simpa only [View.attach, if_neg hqroot.symm] using h.root_parent
  · have := h.root_hi
    rwa [Ghost.parentHi_some, if_neg hroot.symm] at this
  · intro x hx hl
    have hxP : x ≠ v.parent p := by rintro rfl; omega
    simpa only [View.attach, if_neg hxP] using h.leaf_children x hx hl
  · intro x hx hl
    by_cases hxP : x = v.parent p
    · subst hxP
      simp only [View.attach, if_true, List.map_append, List.map_cons]
      refine cells_append.mpr ⟨g.lo p, hsame (fun hmem => ?_) hc₁, rfl, h.lo_lt_hi p hp,
        hhi.symm, h.lo_lt_hi q hq, ?_⟩
      · exact hnodup.2.2 p hmem p (by simp) rfl
      · rw [Ghost.parentHi_some, if_pos rfl] at hc₂
        exact hsame hnodup.2.1.1 hc₂
    · simp only [View.attach, if_neg hxP]
      refine hsame (fun hmem => hxP ?_) (h.cells x hx hl)
      rw [(h.of_mem_children hx hmem).2.2]
  · intro x hx e he
    have hold : ∀ e' ∈ v.children x, e'.2 ∈ g.nodes ∧ g.level e'.2 + 1 = g.level x ∧
        (v.attach (v.parent p) p q l₁ kp k l₂).parent e'.2 = x ∧
        (g.lo e'.2 = ⊥ ∨ InTree e'.1 ∧ pos e'.1 = g.lo e'.2) := by
      intro e' he'
      obtain ⟨hmem, hl, hpar, hkey⟩ := h.child x hx e' he'
      have heq : e'.2 ≠ q := fun heq => horphan x hx (heq ▸ List.mem_map_of_mem (f := Prod.snd) he')
      exact ⟨hmem, hl, by simpa only [View.attach, if_neg heq] using hpar, hkey⟩
    by_cases hxP : x = v.parent p
    · subst hxP
      simp only [View.attach, if_true] at he
      have he' : e = (k, q) ∨ e ∈ v.children (v.parent p) := by
        rw [hP]
        simp only [List.mem_append, List.mem_cons] at he ⊢
        tauto
      rcases he' with rfl | he'
      · exact ⟨hq, by rw [← hlevel, hPl], by simp only [View.attach, if_true], Or.inr ⟨hk, hkq⟩⟩
      · exact hold e he'
    · simp only [View.attach, if_neg hxP] at he
      exact hold e he
  · intro x hx hxroot _
    by_cases hxq : x = q
    · subst hxq
      simp [View.attach, hPmem]
    · simp only [View.attach, if_neg hxq]
      obtain ⟨hmem, hlist⟩ := h.up x hx hxroot (by rintro a b hab; simp at hab; rwa [← hab.2])
      refine ⟨hmem, ?_⟩
      split
      next heq =>
        rw [heq, hP] at hlist
        simp only [List.map_append, List.map_cons, List.mem_append, List.mem_cons] at hlist ⊢
        tauto
      next => exact hlist

/-! ## A new root -/

/-- Put the new root `r` above `p` and `q`. -/
def View.newRoot (v : View K) (p q r : Int) (k₀ k : K) : View K :=
  { v with
    kind := fun x => if x = r then some .internal else v.kind x
    parent := fun x => if x = r then bpInvalidPageNum else if x = p ∨ x = q then r else v.parent x
    children := fun x => if x = r then [(k₀, p), (k, q)] else v.children x
    entries := fun x => if x = r then [] else v.entries x }

/-- The new root covers everything, one level above the old one. -/
def Ghost.newRoot (g : Ghost B) (p r : Int) : Ghost B where
  nodes := insert r g.nodes
  level x := if x = r then g.level p + 1 else g.level x
  lo x := if x = r then ⊥ else g.lo x
  hi x := if x = r then ⊤ else g.hi x

/-- A new root takes up the two halves of the old one. -/
theorem TreeInv.newRoot (h : TreeInv InTree pos v g p (some (p, q))) (hr : r ∉ g.nodes)
    (hr₀ : 0 ≤ r) {k₀ k : K} (hk : InTree k) (hkq : pos k = g.lo q) :
    TreeInv InTree pos (v.newRoot p q r k₀ k) (g.newRoot p r) r none := by
  obtain ⟨hp, hq, hpq, -, hlevel, hhi, horphan⟩ := h.pending_ok p q rfl
  have hne : ∀ {x}, x ∈ g.nodes → x ≠ r := fun hx hxr => hr (hxr ▸ hx)
  have hlo : ∀ {x}, x ∈ g.nodes → (g.newRoot p r).lo x = g.lo x := fun hx => by
    simp only [Ghost.newRoot, if_neg (hne hx)]
  have hhi' : ∀ {x}, x ∈ g.nodes → (g.newRoot p r).hi x = g.hi x := fun hx => by
    simp only [Ghost.newRoot, if_neg (hne hx)]
  have hlev : ∀ {x}, x ∈ g.nodes → (g.newRoot p r).level x = g.level x := fun hx => by
    simp only [Ghost.newRoot, if_neg (hne hx)]
  have hlevr : (g.newRoot p r).level r = g.level p + 1 := by simp only [Ghost.newRoot, if_true]
  have htop : g.hi q = ⊤ := by simpa using h.root_hi
  -- neither half is a child of an old node
  have hnot : ∀ {x c}, x ∈ g.nodes → c ∈ (v.children x).map Prod.snd → c ≠ p ∧ c ≠ q := by
    intro x c hx hc
    exact ⟨h.ne_root_of_mem_children hx hc, fun heq => horphan x hx (heq ▸ hc)⟩
  refine ⟨⟨Set.mem_insert _ _, ?_, ?_, ?_, ?_, ?_, ?_, ?_, ?_, ?_, ?_, ?_, by simp⟩, ⟨?_, ?_, ?_⟩,
    ⟨?_, ?_⟩⟩
  · simp only [View.newRoot, if_true]
  · simp only [Ghost.newRoot, if_true]
  · simp only [Ghost.parentHi_none, Ghost.newRoot, if_true]
  · rintro x (rfl | hx)
    · exact hr₀
    · exact h.nonneg x hx
  · rintro x (rfl | hx)
    · exact le_rfl
    · rw [hlev hx, hlevr]
      exact (h.level_le x hx).trans (Nat.le_succ _)
  · rintro x (rfl | hx)
    · simp only [Ghost.newRoot, if_true]
      exact (bot_le.trans_lt (h.lo_lt_hi p hp)).trans_le le_top
    · rw [hlo hx, hhi' hx]
      exact h.lo_lt_hi x hx
  · rintro x (rfl | hx)
    · rw [hlevr]
      simp [View.newRoot]
    · rw [hlev hx]
      simpa only [View.newRoot, if_neg (hne hx)] using h.kind_eq x hx
  · rintro x (rfl | hx) hl
    · rw [hlevr] at hl
      omega
    · rw [hlev hx] at hl
      simpa only [View.newRoot, if_neg (hne hx)] using h.leaf_children x hx hl
  · rintro x (rfl | hx) hl
    · simp only [View.newRoot, if_true, List.map_cons, List.map_nil, cells_cons, cells_nil,
        Ghost.parentHi_none, hlo hp, hlo hq, hhi' hp, hhi' hq]
      simp only [Ghost.newRoot, if_true]
      exact ⟨h.root_lo, h.lo_lt_hi p hp, hhi.symm, h.lo_lt_hi q hq, htop⟩
    · rw [hlev hx] at hl
      simp only [View.newRoot, if_neg (hne hx), hlo hx, hhi' hx]
      refine (cells_congr (fun c hc => hlo (h.of_mem_children hx hc).1) fun c hc => ?_).mpr
        (h.cells x hx hl)
      rw [Ghost.parentHi_none, Ghost.parentHi_some, if_neg (hnot hx hc).1,
        hhi' (h.of_mem_children hx hc).1]
  · rintro x (rfl | hx) e he
    · simp only [View.newRoot, if_true, List.mem_cons, List.not_mem_nil, or_false] at he
      rcases he with rfl | rfl
      · exact ⟨Set.mem_insert_of_mem _ hp, by rw [hlev hp, hlevr],
          by simp [View.newRoot, hne hp], Or.inl (by rw [hlo hp, h.root_lo])⟩
      · exact ⟨Set.mem_insert_of_mem _ hq, by rw [hlev hq, hlevr, hlevel],
          by simp [View.newRoot, hne hq], Or.inr ⟨hk, by rw [hlo hq, hkq]⟩⟩
    · simp only [View.newRoot, if_neg (hne hx)] at he
      obtain ⟨hmem, hl, hpar, hkey⟩ := h.child x hx e he
      have hne' := hnot hx (List.mem_map_of_mem (f := Prod.snd) he)
      refine ⟨Set.mem_insert_of_mem _ hmem, by rw [hlev hmem, hlev hx, hl], ?_, by rwa [hlo hmem]⟩
      simpa [View.newRoot, hne hmem, hne'] using hpar
  · rintro x (rfl | hx) hxr _
    · exact absurd rfl hxr
    · by_cases hxpq : x = p ∨ x = q
      · simp only [View.newRoot, if_neg hxr, if_pos hxpq, if_true]
        exact ⟨Set.mem_insert _ _, by simpa using hxpq⟩
      · rw [not_or] at hxpq
        obtain ⟨hmem, hlist⟩ := h.up x hx hxpq.1
          (by rintro a b hab; simp at hab; rw [← hab.2]; exact hxpq.2)
        simp only [View.newRoot, if_neg hxr, if_neg (not_or.mpr hxpq), if_neg (hne hmem)]
        exact ⟨Set.mem_insert_of_mem _ hmem, hlist⟩
  · rintro x (rfl | hx) hl
    · simp only [View.newRoot, if_true]
    · rw [hlev hx] at hl
      simpa only [View.newRoot, if_neg (hne hx)] using h.internal_entries x hx hl
  · rintro x (rfl | hx)
    · simp [View.newRoot]
    · simpa only [View.newRoot, if_neg (hne hx)] using h.sorted x hx
  · rintro x (rfl | hx) e he
    · simp [View.newRoot] at he
    · simp only [View.newRoot, if_neg (hne hx)] at he
      rw [hlo hx, hhi' hx]
      exact h.entry x hx e he
  · rintro x (rfl | hx) hl
    · rw [hlevr] at hl
      omega
    · rw [hlev hx] at hl
      rw [hhi' hx]
      rcases h.next x hx hl with hend | ⟨hmem, hl', hlo', hback⟩
      · exact Or.inl hend
      · refine Or.inr ⟨Set.mem_insert_of_mem _ hmem, ?_, ?_, hback⟩
        · exact (hlev hmem).trans hl'
        · exact (hlo hmem).trans hlo'
  · rintro x (rfl | hx) hl
    · rw [hlevr] at hl
      omega
    · rw [hlev hx] at hl
      rw [hlo hx]
      rcases h.prev x hx hl with hend | ⟨hmem, hl', hlo', hback⟩
      · exact Or.inl hend
      · refine Or.inr ⟨Set.mem_insert_of_mem _ hmem, ?_, ?_, hback⟩
        · exact (hlev hmem).trans hl'
        · exact (hhi' hmem).trans hlo'

/-! ## Joining two neighbours -/

/-- Join the node `r` into its left neighbour `l` and take it out of the parent `P`, whose other
items are `l₁`, `(kl, l)` and `l₂`. -/
def View.merge (v : View K) (P l r : Int) (l₁ : List (K × Int)) (kl : K) (l₂ : List (K × Int)) :
    View K :=
  { v with
    parent := fun x => if x ∈ (v.children r).map Prod.snd then l else v.parent x
    children := fun x =>
      if x = P then l₁ ++ (kl, l) :: l₂
      else if x = l then v.children l ++ v.children r else v.children x
    entries := fun x => if x = l then v.entries l ++ v.entries r else v.entries x
    next := fun x => if v.kind r = some .leaf then if x = l then v.next r else v.next x else v.next x
    prev := fun x => if v.kind r = some .leaf then if x = v.next r then l else v.prev x
      else v.prev x }

/-- The left neighbour takes over the interval of the right one. -/
def Ghost.merge (g : Ghost B) (l r : Int) : Ghost B :=
  { g with
    nodes := g.nodes \ {r}
    hi := fun x => if x = l then g.hi r else g.hi x }

section merge

variable {l₁ l₂ : List (K × Int)} {kl kr : K} {l : Int}

/-- Two neighbours are on one level and meet. -/
theorem NodeInv.neighbours (h : NodeInv InTree pos v g root none) (hP : P ∈ g.nodes)
    (hPc : v.children P = l₁ ++ (kl, l) :: (kr, r) :: l₂) :
    l ∈ g.nodes ∧ r ∈ g.nodes ∧ l ≠ r ∧ g.level l = g.level r ∧ g.level r + 1 = g.level P ∧
      g.hi l = g.lo r ∧ v.parent l = P ∧ v.parent r = P := by
  have hl : l ∈ (v.children P).map Prod.snd := by simp [hPc]
  have hr : r ∈ (v.children P).map Prod.snd := by simp [hPc]
  obtain ⟨hlm, hll, hlp⟩ := h.of_mem_children hP hl
  obtain ⟨hrm, hrl, hrp⟩ := h.of_mem_children hP hr
  have hcells := h.cells P hP (h.level_ne_zero hP hl)
  rw [hPc, List.map_append, List.map_cons, List.map_cons] at hcells
  obtain ⟨-, -, hlo, -, -⟩ := cells_cut hcells
  have hnodup := h.nodup_children hP
  rw [hPc, List.map_append, List.map_cons, List.map_cons, List.nodup_append, List.nodup_cons]
    at hnodup
  refine ⟨hlm, hrm, fun heq => hnodup.2.1.1 (by simp [heq]), by omega, hrl, hlo.symm, hlp, hrp⟩

/-- The leaves after a join: the leaf after `r` comes right after `l`. -/
theorem LinkInv.merge (h : LinkInv v g) (hl : l ∈ g.nodes) (hr : r ∈ g.nodes) (hne : l ≠ r)
    (hlevel : g.level l = g.level r) (hhi : g.hi l = g.lo r)
    (hlr : g.level l = 0 → v.next l = r) (hkind : v.kind r = some .leaf ↔ g.level r = 0)
    (hlt : g.lo r < g.hi r) (hnonneg : ∀ x ∈ g.nodes, 0 ≤ x) :
    LinkInv (v.merge P l r l₁ kl l₂) (g.merge l r) := by
  have hinvalid : bpInvalidPageNum ∉ g.nodes := fun hmem => absurd (hnonneg _ hmem) (by decide)
  by_cases hleaf : g.level r = 0
  · have hrk := hkind.mpr hleaf
    have hrn := h.next r hr hleaf
    have hrp := h.prev r hr hleaf
    have hln := h.next l hl (hlevel.trans hleaf)
    have hlr' := hlr (hlevel.trans hleaf)
    constructor
    · rintro x ⟨hx, hxr⟩ hl
      have hxn := h.next x hx hl
      simp only [View.merge, Ghost.merge, if_pos hrk, Set.mem_sdiff, Set.mem_singleton_iff] at hxr ⊢
      grind
    · rintro x ⟨hx, hxr⟩ hl
      have hxp := h.prev x hx hl
      simp only [View.merge, Ghost.merge, if_pos hrk, Set.mem_sdiff, Set.mem_singleton_iff] at hxr ⊢
      grind
  · have hrk : ¬ v.kind r = some .leaf := fun hk => hleaf (hkind.mp hk)
    constructor
    · rintro x ⟨hx, hxr⟩ hl
      have hxn := h.next x hx hl
      simp only [View.merge, Ghost.merge, if_neg hrk, Set.mem_sdiff,
        Set.mem_singleton_iff] at hxr hl ⊢
      grind
    · rintro x ⟨hx, hxr⟩ hl
      have hxp := h.prev x hx hl
      simp only [View.merge, Ghost.merge, if_neg hrk, Set.mem_sdiff,
        Set.mem_singleton_iff] at hxr hl ⊢
      grind

omit [BoundedOrder B] in
/-- The entries after a join: those of `l` lie below those of `r`. -/
theorem EntryInv.merge (h : EntryInv InTree pos v g) (hl : l ∈ g.nodes) (hr : r ∈ g.nodes)
    (hlevel : g.level l = g.level r) (hhi : g.hi l = g.lo r) (hltl : g.lo l < g.hi l)
    (hltr : g.lo r < g.hi r) : EntryInv InTree pos (v.merge P l r l₁ kl l₂) (g.merge l r) := by
  constructor
  · rintro x ⟨hx, -⟩ hlx
    simp only [View.merge]
    split
    next hxl =>
      rw [h.internal_entries l hl (hxl ▸ hlx),
        h.internal_entries r hr (fun h0 => hlx (by rw [hxl]; exact hlevel.trans h0)),
        List.append_nil]
    next => exact h.internal_entries x hx hlx
  · rintro x ⟨hx, -⟩
    simp only [View.merge]
    split
    next =>
      refine List.pairwise_append.mpr ⟨h.sorted l hl, h.sorted r hr, fun e he f hf => ?_⟩
      have hbelow := (h.entry l hl e he).2.2
      rw [hhi] at hbelow
      exact hbelow.trans_le (h.entry r hr f hf).2.1
    next => exact h.sorted x hx
  · rintro x ⟨hx, -⟩ e he
    simp only [View.merge] at he
    simp only [Ghost.merge]
    by_cases hxl : x = l
    · rw [if_pos hxl, List.mem_append] at he
      rw [if_pos hxl, hxl]
      rcases he with he | he
      · obtain ⟨hin, hlo, hlt⟩ := h.entry l hl e he
        rw [hhi] at hlt
        exact ⟨hin, hlo, hlt.trans hltr⟩
      · obtain ⟨hin, hlo, hlt⟩ := h.entry r hr e he
        rw [← hhi] at hlo
        exact ⟨hin, hltl.le.trans hlo, hlt⟩
    · rw [if_neg hxl] at he ⊢
      exact h.entry x hx e he

/-- The nodes after a join. -/
theorem NodeInv.merge (h : NodeInv InTree pos v g root none) (hP : P ∈ g.nodes)
    (hPc : v.children P = l₁ ++ (kl, l) :: (kr, r) :: l₂) :
    NodeInv InTree pos (v.merge P l r l₁ kl l₂) (g.merge l r) root none := by
  obtain ⟨hl, hr, hlr, hlevel, hPl, hhi, hlP, hrP⟩ := h.neighbours hP hPc
  have hrP' : r ∈ (v.children P).map Prod.snd := by simp [hPc]
  have hlP' : l ∈ (v.children P).map Prod.snd := by simp [hPc]
  have hPr : P ≠ r := fun heq => by rw [heq] at hPl; omega
  have hPl' : P ≠ l := fun heq => by rw [heq, hlevel] at hPl; omega
  have hnodup := h.nodup_children hP
  rw [hPc, List.map_append, List.map_cons, List.map_cons] at hnodup
  -- the items that stay in the parent
  have hmemP : ∀ e ∈ l₁ ++ (kl, l) :: l₂, e ∈ v.children P ∧ e.2 ≠ r := by
    intro e he
    refine ⟨?_, fun heq => ?_⟩
    · rw [hPc]
      simp only [List.mem_append, List.mem_cons] at he ⊢
      tauto
    · have hmem := List.mem_map_of_mem (f := Prod.snd) he
      rw [heq, List.map_append, List.map_cons] at hmem
      simp only [List.nodup_append, List.nodup_cons] at hnodup
      simp only [List.mem_append, List.mem_cons] at hmem hnodup
      rcases hmem with hmem | hmem | hmem
      · exact hnodup.2.2 r hmem r (by simp) rfl
      · exact hlr hmem.symm
      · exact hnodup.2.1.2.1 hmem
  have hparent : ∀ {x c}, x ∈ g.nodes → x ≠ r → c ∈ (v.children x).map Prod.snd →
      c ∉ (v.children r).map Prod.snd := fun hx hxr hc hcr =>
    hxr (by rw [← (h.of_mem_children hx hc).2.2, (h.of_mem_children hr hcr).2.2])
  refine ⟨⟨h.root_mem, ?_⟩, ?_, h.root_lo, ?_, fun x hx => h.nonneg x hx.1,
    fun x hx => h.level_le x hx.1, ?_, fun x hx => h.kind_eq x hx.1, ?_, ?_, ?_, ?_, by simp⟩
  · rintro rfl
    exact h.ne_root_of_mem_children hP hrP' rfl
  · have : root ∉ (v.children r).map Prod.snd := fun hmem => h.ne_root_of_mem_children hr hmem rfl
    simpa only [View.merge, if_neg this] using h.root_parent
  · have : root ≠ l := fun heq => h.ne_root_of_mem_children hP hlP' heq.symm
    simpa only [Ghost.parentHi_none, Ghost.merge, if_neg this] using h.root_hi
  · rintro x ⟨hx, -⟩
    simp only [Ghost.merge]
    split
    next hxl =>
      rw [hxl]
      exact (hhi ▸ h.lo_lt_hi l hl).trans (h.lo_lt_hi r hr)
    next => exact h.lo_lt_hi x hx
  · rintro x ⟨hx, -⟩ hlx
    have hxP : x ≠ P := by
      rintro rfl
      exact h.level_ne_zero hP hlP' hlx
    simp only [View.merge, if_neg hxP]
    split
    next hxl =>
      rw [h.leaf_children l hl (hxl ▸ hlx),
        h.leaf_children r hr (by rw [← hlevel]; exact hxl ▸ hlx), List.append_nil]
    next => exact h.leaf_children x hx hlx
  · -- only the parent lists `l`, and it now sees the joined interval
    have hsame : ∀ {cs : List Int} {a b : B}, l ∉ cs →
        Cells g.lo (g.parentHi none) a b cs →
        Cells g.lo ((g.merge l r).parentHi none) a b cs := fun hcs hc =>
      (cells_congr (fun _ _ => rfl) fun c hc' => by
        have hcl : c ≠ l := fun heq => hcs (heq ▸ hc')
        simp only [Ghost.parentHi_none, Ghost.merge, if_neg hcl]).mpr hc
    rintro x ⟨hx, -⟩ hlx
    have hcx := h.cells x hx hlx
    by_cases hxP : x = P
    · subst hxP
      simp only [View.merge, Ghost.merge, if_true, if_neg hPl', List.map_append, List.map_cons]
      rw [hPc, List.map_append, List.map_cons, List.map_cons] at hcx
      obtain ⟨hc₁, -, -, hltr, hc₂⟩ := cells_cut hcx
      simp only [List.nodup_append, List.nodup_cons] at hnodup
      refine cells_append.mpr ⟨g.lo l, hsame (fun hmem => ?_) hc₁, rfl, ?_, ?_⟩
      · exact hnodup.2.2 l hmem l (by simp) rfl
      · simp only [Ghost.parentHi_none, if_true]
        exact (hhi ▸ h.lo_lt_hi l hl).trans hltr
      · simp only [Ghost.parentHi_none, if_true]
        exact hsame (fun hmem => hnodup.2.1.1 (by simp [hmem])) hc₂
    · simp only [View.merge, if_neg hxP]
      by_cases hxl : x = l
      · subst hxl
        have hcr := h.cells r hr (by rw [← hlevel]; exact hlx)
        simp only [Ghost.merge, if_true, List.map_append]
        refine cells_append.mpr ⟨g.hi x, hsame (fun hmem => ?_) hcx,
          hsame (fun hmem => ?_) (hhi ▸ hcr)⟩
        · exact absurd (h.of_mem_children hl hmem).2.1 (by omega)
        · exact absurd (h.of_mem_children hr hmem).2.1 (by omega)
      · simp only [Ghost.merge, if_neg hxl]
        exact hsame (fun hmem => hxP (by rw [← (h.of_mem_children hx hmem).2.2, hlP])) hcx
  · rintro x ⟨hx, hxr⟩ e he
    have hold : ∀ e ∈ v.children x, e.2 ≠ r → e.2 ∈ (g.merge l r).nodes ∧
        (g.merge l r).level e.2 + 1 = (g.merge l r).level x ∧
        (v.merge P l r l₁ kl l₂).parent e.2 = x ∧
        ((g.merge l r).lo e.2 = ⊥ ∨ InTree e.1 ∧ pos e.1 = (g.merge l r).lo e.2) := by
      intro e he her
      obtain ⟨hmem, hlev, hpar, hkey⟩ := h.child x hx e he
      have hnot := hparent hx hxr (List.mem_map_of_mem (f := Prod.snd) he)
      exact ⟨⟨hmem, her⟩, hlev, by simpa only [View.merge, if_neg hnot] using hpar, hkey⟩
    by_cases hxP : x = P
    · subst hxP
      simp only [View.merge, if_true] at he
      exact hold e (hmemP e he).1 (hmemP e he).2
    · -- `r` is listed by its parent only
      have her : ∀ e ∈ v.children x, e.2 ≠ r := fun e he heq =>
        hxP (by rw [← (h.child x hx e he).2.2.1, heq, hrP])
      simp only [View.merge, if_neg hxP] at he
      split at he
      next hxl =>
        subst hxl
        rcases List.mem_append.mp he with he | he
        · exact hold e he (her e he)
        · obtain ⟨hmem, hlev, -, hkey⟩ := h.child r hr e he
          have hin := List.mem_map_of_mem (f := Prod.snd) he
          refine ⟨⟨hmem, fun heq => ?_⟩, ?_, by simp only [View.merge, if_pos hin], hkey⟩
          · rw [Set.mem_singleton_iff] at heq
            rw [heq] at hlev
            omega
          · exact hlev.trans hlevel.symm
      next => exact hold e he (her e he)
  · rintro x ⟨hx, hxr⟩ hxroot _
    by_cases hxc : x ∈ (v.children r).map Prod.snd
    · simp only [View.merge, if_pos hxc, if_neg hPl'.symm, if_true]
      exact ⟨⟨hl, hlr⟩, by rw [List.map_append]; exact List.mem_append_right _ hxc⟩
    · obtain ⟨hmem, hlist⟩ := h.up x hx hxroot (by simp)
      simp only [View.merge, if_neg hxc]
      refine ⟨⟨hmem, fun heq => hxc (heq ▸ hlist)⟩, ?_⟩
      split
      next hpar =>
        rw [hpar, hPc] at hlist
        simp only [List.map_append, List.map_cons, List.mem_append, List.mem_cons] at hlist ⊢
        have hxr' : x ≠ r := hxr
        tauto
      next =>
        split
        next hpar =>
          rw [hpar] at hlist
          rw [List.map_append]
          exact List.mem_append_left _ hlist
        next => exact hlist

/-- The leaf after the left neighbour is the right neighbour. -/
theorem TreeInv.next_left (h : TreeInv InTree pos v g root none) (hP : P ∈ g.nodes)
    (hPc : v.children P = l₁ ++ (kl, l) :: (kr, r) :: l₂) (hleaf : g.level l = 0) :
    v.next l = r := by
  obtain ⟨hl, hr, -, hlevel, -, hhi, -, -⟩ := h.neighbours hP hPc
  have hltr := h.lo_lt_hi r hr
  rcases h.next l hl hleaf with ⟨htop, -⟩ | ⟨hmem, hleaf', hlo, -⟩
  · rw [← hhi, htop] at hltr
    exact absurd hltr not_top_lt
  · exact h.unique hmem hr (by omega) hlo.le (hlo ▸ h.lo_lt_hi _ hmem) hhi.ge (hhi ▸ hltr)

/-- Joining two neighbours under one parent. -/
theorem TreeInv.merge (h : TreeInv InTree pos v g root none) (hP : P ∈ g.nodes)
    (hPc : v.children P = l₁ ++ (kl, l) :: (kr, r) :: l₂) :
    TreeInv InTree pos (v.merge P l r l₁ kl l₂) (g.merge l r) root none := by
  obtain ⟨hl, hr, hlr, hlevel, -, hhi, -, -⟩ := h.neighbours hP hPc
  refine ⟨h.toNodeInv.merge hP hPc, h.toEntryInv.merge hl hr hlevel hhi (h.lo_lt_hi l hl)
    (h.lo_lt_hi r hr), h.toLinkInv.merge hl hr hlr hlevel hhi (h.next_left hP hPc) ?_
    (h.lo_lt_hi r hr) h.nonneg⟩
  rw [h.kind_eq r hr]
  split <;> simp [*]

end merge

/-! ## Moving items between neighbours -/

/-- The neighbours `l` and `r` share their children and entries in a new way; `k` is the new key
between them. -/
def View.redistribute (v : View K) (P l r : Int) (l₁ : List (K × Int)) (kl k : K)
    (l₂ : List (K × Int)) (C₁ C₂ : List (K × Int)) (E₁ E₂ : List (K × RID)) : View K :=
  { v with
    parent := fun x =>
      if x ∈ C₁.map Prod.snd then l else if x ∈ C₂.map Prod.snd then r else v.parent x
    children := fun x =>
      if x = P then l₁ ++ (kl, l) :: (k, r) :: l₂
      else if x = l then C₁ else if x = r then C₂ else v.children x
    entries := fun x => if x = l then E₁ else if x = r then E₂ else v.entries x }

/-- The neighbours meet at `m`. -/
def Ghost.redistribute (g : Ghost B) (l r : Int) (m : B) : Ghost B :=
  { g with
    lo := fun x => if x = r then m else g.lo x
    hi := fun x => if x = l then m else g.hi x }

section redistribute

variable {l₁ l₂ : List (K × Int)} {kl kr k : K} {l : Int} {C₁ C₂ : List (K × Int)}
  {E₁ E₂ : List (K × RID)}

omit [LinearOrder B] [BoundedOrder B] in
/-- Joining two intervals and cutting elsewhere. -/
theorem Ghost.merge_split (hr : r ∈ g.nodes) (hlr : l ≠ r) (hlevel : g.level l = g.level r) :
    (g.merge l r).split l r m = g.redistribute l r m := by
  simp only [Ghost.merge, Ghost.split, Ghost.redistribute, Ghost.mk.injEq, true_and]
  refine ⟨by rw [Set.insert_sdiff_singleton, Set.insert_eq_of_mem hr], ?_, ?_⟩
  · funext x
    split
    next hx => rw [hx, hlevel]
    next => rfl
  · funext x
    by_cases hxr : x = r
    · simp [hxr, hlr.symm]
    · by_cases hxl : x = l <;> simp [hxr, hxl, hlr]

/-- Joining the neighbours, cutting them elsewhere and entering the right part again gives the
items of `View.redistribute`. -/
theorem TreeInv.redistribute_agrees (h : TreeInv InTree pos v g root none) (hP : P ∈ g.nodes)
    (hPc : v.children P = l₁ ++ (kl, l) :: (kr, r) :: l₂)
    (hC : v.children l ++ v.children r = C₁ ++ C₂) (hnodup : (C₁ ++ C₂).map Prod.snd |>.Nodup) :
    (v.redistribute P l r l₁ kl k l₂ C₁ C₂ E₁ E₂).AgreesOn g.nodes
      (((v.merge P l r l₁ kl l₂).split l r C₁ C₂ E₁ E₂).attach P l r l₁ kl k l₂) := by
  obtain ⟨hl, hr, hlr, hlevel, hPl, -, hlP, hrP⟩ := h.neighbours hP hPc
  have hPl' : P ≠ l := fun heq => by rw [heq, hlevel] at hPl; omega
  have hPr : P ≠ r := fun heq => by rw [heq] at hPl; omega
  have hkind : v.kind l = v.kind r := by rw [h.kind_eq l hl, h.kind_eq r hr, hlevel]
  have hmem : ∀ x, x ∈ C₁.map Prod.snd ∨ x ∈ C₂.map Prod.snd ↔
      x ∈ (v.children l).map Prod.snd ∨ x ∈ (v.children r).map Prod.snd := fun x => by
    rw [← List.mem_append, ← List.map_append, ← hC, List.map_append, List.mem_append]
  have hpar : ∀ x, x ∈ (v.children l).map Prod.snd → v.parent x = l := fun x hx =>
    (h.of_mem_children hl hx).2.2
  have hlow : ∀ x, x ∈ (v.children l).map Prod.snd ∨ x ∈ (v.children r).map Prod.snd →
      g.level x + 1 = g.level r := fun x hx => by
    rcases hx with hx | hx
    · have := (h.of_mem_children hl hx).2.1
      omega
    · exact (h.of_mem_children hr hx).2.1
  have hboth : ∀ x, x ∈ C₁.map Prod.snd → x ∉ C₂.map Prod.snd := by
    intro x h₁ h₂
    rw [List.map_append, List.nodup_append] at hnodup
    exact hnodup.2.2 x h₁ x h₂ rfl
  intro x hx
  refine ⟨?_, ?_, ?_, ?_, fun hleaf => ?_⟩
  · simp only [View.redistribute, View.attach, View.split, View.merge]
    split
    next hxr => rw [hxr, hkind]
    next => rfl
  · have hxm := hmem x
    have hxl := hlow x
    simp only [View.redistribute, View.attach, View.split, View.merge]
    grind
  · simp only [View.redistribute, View.attach, View.split, View.merge]
    grind
  · simp only [View.redistribute, View.attach, View.split, View.merge]
    grind
  · -- the links of a leaf come back to what they were
    have hk : (((v.merge P l r l₁ kl l₂).split l r C₁ C₂ E₁ E₂).attach P l r l₁ kl k l₂).kind x =
        v.kind x := by
      simp only [View.attach, View.split, View.merge]
      split
      next hxr => rw [hxr, hkind]
      next => rfl
    rw [hk] at hleaf
    have hx0 : g.level x = 0 := by
      by_contra hne
      rw [h.kind_eq x hx, if_neg hne] at hleaf
      cases hleaf
    by_cases hr0 : g.level r = 0
    · have hrk : v.kind r = some .leaf := by rw [h.kind_eq r hr, if_pos hr0]
      have hnl := h.next_left hP hPc (hlevel.trans hr0)
      have hln := h.next l hl (hlevel.trans hr0)
      have hrn := h.next r hr hr0
      have hxp := h.prev x hx hx0
      have hltr := h.lo_lt_hi r hr
      have hltl := h.lo_lt_hi l hl
      have hinvalid : bpInvalidPageNum ∉ g.nodes := fun hmem => absurd (h.nonneg _ hmem) (by decide)
      simp only [View.redistribute, View.attach, View.split, View.merge, hkind, hrk, if_true]
      grind
    · have hrk : ¬ v.kind r = some .leaf := by simp [h.kind_eq r hr, hr0]
      simp only [View.redistribute, View.attach, View.split, View.merge, hkind, hrk, if_false,
        and_self]

/-- Sharing the items of two neighbours in a new way. -/
theorem TreeInv.redistribute (h : TreeInv InTree pos v g root none) (hP : P ∈ g.nodes)
    (hPc : v.children P = l₁ ++ (kl, l) :: (kr, r) :: l₂)
    (hC : v.children l ++ v.children r = C₁ ++ C₂) (hE : v.entries l ++ v.entries r = E₁ ++ E₂)
    (hk : InTree k) (hlo : g.lo l < pos k) (hhi : pos k < g.hi r) (hcells : g.level l ≠ 0 →
      Cells g.lo g.hi (g.lo l) (pos k) (C₁.map Prod.snd) ∧
        Cells g.lo g.hi (pos k) (g.hi r) (C₂.map Prod.snd))
    (hE₁ : ∀ e ∈ E₁, pos e.1 < pos k) (hE₂ : ∀ e ∈ E₂, pos k ≤ pos e.1) :
    TreeInv InTree pos (v.redistribute P l r l₁ kl k l₂ C₁ C₂ E₁ E₂) (g.redistribute l r (pos k))
      root none := by
  obtain ⟨hl, hr, hlr, hlevel, hPl, hmeet, hlP, hrP⟩ := h.neighbours hP hPc
  have hPl' : P ≠ l := fun heq => by rw [heq, hlevel] at hPl; omega
  have hPr : P ≠ r := fun heq => by rw [heq] at hPl; omega
  have hlroot : l ≠ root := h.ne_root_of_mem_children hP (by simp [hPc])
  have hlow : ∀ c ∈ (C₁ ++ C₂).map Prod.snd, g.level c + 1 = g.level l := fun c hc => by
    rw [← hC, List.map_append, List.mem_append] at hc
    rcases hc with hc | hc
    · exact (h.of_mem_children hl hc).2.1
    · have := (h.of_mem_children hr hc).2.1
      omega
  have hmerge := h.merge hP hPc
  have hCl : (v.merge P l r l₁ kl l₂).children l = C₁ ++ C₂ := by
    simp only [View.merge, if_neg hPl'.symm, if_true, hC]
  have hhi' : (g.merge l r).hi l = g.hi r := by simp only [Ghost.merge, if_true]
  have hsplit : TreeInv InTree pos ((v.merge P l r l₁ kl l₂).split l r C₁ C₂ E₁ E₂)
      ((g.merge l r).split l r (pos k)) root (some (l, r)) := by
    refine hmerge.split ⟨hl, hlr⟩ (by simp [Ghost.merge]) (h.nonneg r hr) hlo (hhi'.symm ▸ hhi) hCl
      (by simp only [View.merge, if_true, hE]) (fun hne => ?_) hE₁ hE₂
    -- the cells of the children are not those of the neighbours
    have hsame : ∀ {cs : List Int} {a b : B}, (∀ c ∈ cs, c ∈ (C₁ ++ C₂).map Prod.snd) →
        Cells g.lo g.hi a b cs → Cells (g.merge l r).lo (g.merge l r).hi a b cs := fun hcs hc =>
      (cells_congr (fun _ _ => rfl) fun c hc' => by
        have hcl : c ≠ l := fun heq => by
          have := hlow c (hcs c hc')
          rw [heq] at this
          omega
        simp only [Ghost.merge, if_neg hcl]).mpr hc
    obtain ⟨h₁, h₂⟩ := hcells hne
    rw [hhi']
    exact ⟨hsame (fun c hc => by rw [List.map_append]; exact List.mem_append_left _ hc) h₁,
      hsame (fun c hc => by rw [List.map_append]; exact List.mem_append_right _ hc) h₂⟩
  have hlpar : ((v.merge P l r l₁ kl l₂).split l r C₁ C₂ E₁ E₂).parent l = P := by
    have h₁ : l ∉ C₂.map Prod.snd := fun hmem => by
      have := hlow l (by rw [List.map_append]; exact List.mem_append_right _ hmem)
      omega
    have h₂ : l ∉ (v.children r).map Prod.snd := fun hmem => by
      have := (h.of_mem_children hr hmem).2.1
      omega
    simp only [View.split, View.merge, if_neg hlr, if_neg h₁, if_neg h₂, hlP]
  have hPc' : ((v.merge P l r l₁ kl l₂).split l r C₁ C₂ E₁ E₂).children
      (((v.merge P l r l₁ kl l₂).split l r C₁ C₂ E₁ E₂).parent l) = l₁ ++ (kl, l) :: l₂ := by
    rw [hlpar]
    simp only [View.split, View.merge, if_neg hPr, if_neg hPl', if_true]
  have hattach := hsplit.attach hlroot hPc' hk (by simp only [Ghost.split, if_true])
  rw [hlpar, Ghost.merge_split hr hlr hlevel] at hattach
  refine hattach.congr (h.redistribute_agrees hP hPc hC ?_)
  rw [← hCl]
  exact hmerge.nodup_children ⟨hl, hlr⟩

end redistribute

/-! ## Dropping a root with one child -/

/-- The child `c` of the old root becomes the root. -/
def View.shrinkRoot (v : View K) (c : Int) : View K :=
  { v with parent := fun x => if x = c then bpInvalidPageNum else v.parent x }

/-- The old root is no longer a node. -/
def Ghost.shrinkRoot (g : Ghost B) (root : Int) : Ghost B := { g with nodes := g.nodes \ {root} }

/-- The only child of the root covers everything. -/
theorem TreeInv.shrinkRoot (h : TreeInv InTree pos v g root none) {k : K}
    (hroot : v.children root = [(k, c)]) :
    TreeInv InTree pos (v.shrinkRoot c) (g.shrinkRoot root) c none := by
  have hc : c ∈ (v.children root).map Prod.snd := by simp [hroot]
  obtain ⟨hcm, hcl, -⟩ := h.of_mem_children h.root_mem hc
  have hlevel := h.level_ne_zero h.root_mem hc
  have hcells := h.cells root h.root_mem hlevel
  simp only [hroot, List.map_cons, List.map_nil, cells_cons, cells_nil,
    Ghost.parentHi_none] at hcells
  have hcr := h.ne_root_of_mem_children h.root_mem hc
  have hleaf : ∀ {x}, g.level x = 0 → x ≠ root := by
    rintro x hx rfl
    exact hlevel hx
  refine ⟨⟨⟨hcm, hcr⟩, by simp [View.shrinkRoot], hcells.1.trans h.root_lo,
    hcells.2.2.trans h.root_hi, fun x hx => h.nonneg x hx.1, ?_, fun x hx => h.lo_lt_hi x hx.1,
    fun x hx => h.kind_eq x hx.1, fun x hx => h.leaf_children x hx.1, fun x hx => h.cells x hx.1, ?_,
    ?_, by simp⟩, ⟨fun x hx => h.internal_entries x hx.1, fun x hx => h.sorted x hx.1,
    fun x hx => h.entry x hx.1⟩, ⟨?_, ?_⟩⟩
  · rintro x ⟨hx, hxr⟩
    have := h.level_lt hx hxr
    simp only [Ghost.shrinkRoot]
    omega
  · rintro x ⟨hx, hxr⟩ e he
    obtain ⟨hmem, hlev, hpar, hkey⟩ := h.child x hx e he
    have hec : e.2 ≠ c := fun heq => hxr (by
      rw [Set.mem_singleton_iff, ← hpar, heq, (h.of_mem_children h.root_mem hc).2.2])
    refine ⟨⟨hmem, h.ne_root_of_mem_children hx (List.mem_map_of_mem (f := Prod.snd) he)⟩, hlev, ?_,
      hkey⟩
    simpa only [View.shrinkRoot, if_neg hec] using hpar
  · rintro x ⟨hx, hxr⟩ hxc _
    obtain ⟨hmem, hlist⟩ := h.up x hx hxr (by simp)
    simp only [View.shrinkRoot, if_neg hxc]
    refine ⟨⟨hmem, fun heq => ?_⟩, hlist⟩
    rw [Set.mem_singleton_iff] at heq
    rw [heq, hroot] at hlist
    exact hxc (by simpa using hlist)
  · rintro x ⟨hx, -⟩ hl
    rcases h.next x hx hl with hend | ⟨hmem, hl', hlo, hback⟩
    · exact Or.inl hend
    · exact Or.inr ⟨⟨hmem, hleaf hl'⟩, hl', hlo, hback⟩
  · rintro x ⟨hx, -⟩ hl
    rcases h.prev x hx hl with hend | ⟨hmem, hl', hhi, hback⟩
    · exact Or.inl hend
    · exact Or.inr ⟨⟨hmem, hleaf hl'⟩, hl', hhi, hback⟩

end Miniob.Storage.Index
