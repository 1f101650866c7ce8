import Miniob.Storage.Index.Validate

/-!
# The shape of every reachable index

The shape of the tree as it is read off the pages, without ghosts. `Below s root d p` follows child
references, `leavesBelow` lists the leaves from left to right, and `FirstChildPath` is the path of
first children, along which the first keys of internal nodes mean nothing.

`indexShape_of_represents` derives all of it from the invariant, and `reachable_shape` is the
result for every sequence of operations on a new index.
-/

namespace Miniob.Storage.Index

open Miniob.Lib
open Miniob.Storage.BufferPool (FlatPool flat)

variable {K : Type}

/-! ## Reading the shape off the pages -/

/-- The page `p` is reached from `root` along `d` child references. -/
inductive Below (s : FlatPool (IndexPage K)) (root : Int) : ℕ → Int → Prop
  /-- The root itself. -/
  | root : Below s root 0 root
  /-- A child of a page that is reached. -/
  | child {d : ℕ} {p : Int} {n : InternalIndexNode K} {e : K × Int} (hp : Below s root d p)
      (hn : s.page p = .internal n) (he : e ∈ n.items) : Below s root (d + 1) e.2

/-- The page is on the path of first children from the root. -/
inductive FirstChildPath (s : FlatPool (IndexPage K)) (root : Int) : Int → Prop
  /-- The root itself. -/
  | root : FirstChildPath s root root
  /-- The first child of a page on the path. -/
  | child {p : Int} {n : InternalIndexNode K} {e : K × Int} (hp : FirstChildPath s root p)
      (hn : s.page p = .internal n) (he : n.items.head? = some e) : FirstChildPath s root e.2

/-- The leaves `d` levels below a page, from left to right. -/
def leavesBelow (s : FlatPool (IndexPage K)) : ℕ → Int → List Int
  | 0, p => [p]
  | d + 1, p => (s.page p).children.flatMap fun e => leavesBelow s d e.2

/-- The leaves are linked in both directions, the first to `prev` and the last to nothing. -/
def Linked (s : FlatPool (IndexPage K)) : Int → List Int → Prop
  | _, [] => True
  | prev, p :: ps => (∃ n, s.page p = .leaf n ∧ n.prevBrother = prev ∧
      n.nextBrother = ps.head?.getD bpInvalidPageNum) ∧ Linked s p ps

/-- **The shape of an index** whose root page is `header.rootPage`. -/
structure IndexShape (header : IndexFileHeader) (s : FlatPool (IndexPage K)) (height : ℕ) : Prop
    where
  /-- All leaves are at the same depth, and what is above is internal. -/
  depth : ∀ d p, Below s header.rootPage d p → d ≤ height ∧
    (s.page p).kind = some (if d = height then .leaf else .internal)
  /-- A node other than the root is between half full and full. -/
  size : ∀ d p, Below s header.rootPage d p → p ≠ header.rootPage →
    maxSize header (if d = height then .leaf else .internal) / 2 ≤ (s.page p).size ∧
    (s.page p).size ≤ maxSize header (if d = height then .leaf else .internal)
  /-- An internal root has at least two children. -/
  root_size : height ≠ 0 → 2 ≤ (s.page header.rootPage).size
  /-- The root has no parent. -/
  root_parent : (s.page header.rootPage).parentPageNum = bpInvalidPageNum
  /-- The parent field names the node that references the page. -/
  parent : ∀ d p n e, Below s header.rootPage d p → s.page p = .internal n → e ∈ n.items →
    (s.page e.2).parentPageNum = p
  /-- The leaves in tree order form one doubly linked list. -/
  linked : Linked s bpInvalidPageNum (leavesBelow s height header.rootPage)
  /-- The first key of an internal node is the key its parent stores for it, except along the path
  of first children. -/
  first_key : ∀ d p n m k c k₀, Below s header.rootPage d p → s.page p = .internal n →
    (k, c) ∈ n.items → s.page c = .internal m → m.items.head?.map Prod.fst = some k₀ →
    ¬ FirstChildPath s header.rootPage c → k₀ = k

/-! ## It follows from the invariant -/

section shape

variable [LinearOrder K] {comparator : K → K → Int} {InTree : K → Prop} {header : IndexFileHeader}
  {s : FlatPool (IndexPage K)} {g : Ghost (WithBot (WithTop K))} {p : Int}

/-- A page that is reached along `d` references is a node `d` levels below the root. -/
theorem IndexInv.below (h : IndexInv InTree place header s g none none) {d : ℕ}
    (hp : Below s header.rootPage d p) :
    p ∈ g.nodes ∧ g.level p + d = g.level header.rootPage := by
  induction hp with
  | root => exact ⟨h.tree.root_mem, rfl⟩
  | @child d p n e hp hn he ih =>
      obtain ⟨hmem, hlevel⟩ := ih
      have hC : (view s).children p = n.items := by simp [view, hn, IndexPage.children]
      obtain ⟨hem, hel, -, -⟩ := h.tree.child p hmem e (hC.symm ▸ he)
      exact ⟨hem, by omega⟩

/-- The nodes whose interval starts at the lower end are on the path of first children. By
induction on the distance from the root. -/
theorem IndexInv.firstChildPath (h : IndexInv InTree place header s g none none)
    (hp : p ∈ g.nodes) (hlo : g.lo p = ⊥) : FirstChildPath s header.rootPage p := by
  obtain ⟨m, hm⟩ : ∃ m, g.level p + m = g.level header.rootPage :=
    ⟨_, Nat.add_sub_cancel' (h.tree.level_le p hp)⟩
  induction m generalizing p with
  | zero =>
      by_cases hroot : p = header.rootPage
      · rw [hroot]
        exact FirstChildPath.root
      · have := h.tree.level_lt hp hroot
        omega
  | succ m ih =>
      have hroot : p ≠ header.rootPage := by
        intro heq
        rw [heq] at hm
        omega
      obtain ⟨hP, hpP⟩ := h.tree.up p hp hroot (by simp)
      have hPl := (h.tree.of_mem_children hP hpP).2.1
      obtain ⟨N, hN, hC, -⟩ := h.exists_internal hP (by omega)
      have hcells := h.tree.cells _ hP (by omega)
      rw [hC] at hcells hpP
      have hPlo : g.lo ((view s).parent p) = ⊥ := by
        have := (cells_mem hcells hpP).1
        rw [hlo] at this
        exact le_bot_iff.mp this
      have hpath := ih hP hPlo (by omega)
      cases hitems : N.items with
      | nil =>
          rw [hitems] at hpP
          simp at hpP
      | cons e items =>
          rw [hitems, List.map_cons] at hcells hpP
          rcases List.mem_cons.mp hpP with heq | hmem
          · rw [heq]
            exact FirstChildPath.child hpath hN (by rw [hitems]; rfl)
          · obtain ⟨-, hlt, hrest⟩ := hcells
            have hle := (cells_mem hrest hmem).1
            rw [hlo] at hle
            exact absurd (hlt.trans_le hle) not_lt_bot

/-- The leaves below a node cut its interval into cells. By induction on the level. -/
theorem IndexInv.leavesBelow_cells (h : IndexInv InTree place header s g none none) (d : ℕ)
    (hp : p ∈ g.nodes) (hl : g.level p = d) :
    (∀ q ∈ leavesBelow s d p, q ∈ g.nodes ∧ g.level q = 0) ∧
      Cells g.lo g.hi (g.lo p) (g.hi p) (leavesBelow s d p) := by
  induction d generalizing p with
  | zero =>
      simp only [leavesBelow, List.mem_singleton, cells_cons, cells_nil]
      refine ⟨?_, trivial, h.tree.lo_lt_hi p hp, trivial⟩
      intro q hq
      rw [hq]
      exact ⟨hp, hl⟩
  | succ d ih =>
      have hchild := h.tree.child p hp
      have hcells := h.tree.cells p hp (by omega)
      change Cells g.lo g.hi (g.lo p) (g.hi p) (((s.page p).children).map Prod.snd) at hcells
      change ∀ e ∈ (s.page p).children, _ at hchild
      unfold leavesBelow
      generalize (s.page p).children = items at hchild hcells
      generalize g.lo p = a at hcells
      induction items generalizing a with
      | nil => exact ⟨by simp, hcells⟩
      | cons e items ih' =>
          obtain ⟨hmem, hlevel, -, -⟩ := hchild e (by simp)
          obtain ⟨hin, hce⟩ := ih hmem (by omega)
          obtain ⟨hlo, -, hrest⟩ := hcells
          obtain ⟨hin', hcs⟩ := ih' (fun f hf => hchild f (by simp [hf])) _ hrest
          rw [List.flatMap_cons]
          refine ⟨?_, cells_append.mpr ⟨g.hi e.2, hlo ▸ hce, hcs⟩⟩
          intro q hq
          rcases List.mem_append.mp hq with hq | hq
          · exact hin q hq
          · exact hin' q hq

/-- Leaves that follow each other in the order of the keys are linked. -/
theorem IndexInv.linked (h : IndexInv InTree place header s g none none) (ps : List Int) {q : Int}
    {n : LeafIndexNode K} (hq : q ∈ g.nodes) (hl : g.level q = 0) (hn : s.page q = .leaf n)
    (hps : ∀ p ∈ ps, p ∈ g.nodes ∧ g.level p = 0) (hcells : Cells g.lo g.hi (g.hi q) ⊤ ps) :
    n.nextBrother = ps.head?.getD bpInvalidPageNum ∧ Linked s q ps := by
  induction ps generalizing q n with
  | nil =>
      refine ⟨?_, trivial⟩
      have hnext := h.tree.next q hq hl
      simp only [view, hn, IndexPage.next] at hnext
      rcases hnext with ⟨-, hend⟩ | ⟨hmem, -, hlo, -⟩
      · exact hend
      · have hlt := h.tree.lo_lt_hi _ hmem
        rw [hlo, cells_nil.mp hcells] at hlt
        exact absurd hlt not_top_lt
  | cons p ps ih =>
      obtain ⟨hp, hpl⟩ := hps p (by simp)
      obtain ⟨hlo, hlt, hrest⟩ := hcells
      obtain ⟨m, hm, -⟩ := h.exists_leaf hp hpl
      have hnext := h.tree.next q hq hl
      simp only [view, hn, IndexPage.next] at hnext
      have hqp : n.nextBrother = p := by
        rcases hnext with ⟨htop, -⟩ | ⟨hmem, hl', hlo', -⟩
        · rw [hlo, htop] at hlt
          exact absurd hlt not_top_lt
        · apply h.tree.unique hmem hp (by omega) hlo'.le (hlo' ▸ h.tree.lo_lt_hi _ hmem) hlo.le
          rwa [← hlo]
      have hprev : m.prevBrother = q := by
        rcases hnext with ⟨htop, -⟩ | ⟨-, -, -, hprev⟩
        · rw [hlo, htop] at hlt
          exact absurd hlt not_top_lt
        · rw [hqp, hm] at hprev
          exact hprev
      obtain ⟨hnext', hlinked⟩ := ih hp hpl hm (fun x hx => hps x (by simp [hx])) hrest
      exact ⟨hqp, ⟨m, hm, hprev, hnext'⟩, hlinked⟩

/-- **The invariant gives the shape.** -/
theorem IndexInv.indexShape (h : IndexInv InTree place header s g none none) :
    IndexShape header s (g.level header.rootPage) := by
  have hsize : ∀ x, (s.page x).size = (view s).size x := fun x => IndexPage.size_eq _
  refine ⟨?_, ?_, ?_, h.tree.root_parent, ?_, ?_, ?_⟩
  · intro d p hp
    obtain ⟨hmem, hlevel⟩ := h.below hp
    refine ⟨by omega, ?_⟩
    have hkind : (s.page p).kind = _ := h.tree.kind_eq p hmem
    rw [hkind]
    congr 1
    exact if_congr (by omega) rfl rfl
  · intro d p hp hroot
    obtain ⟨hmem, hlevel⟩ := h.below hp
    have hhalf := h.sizes.ge_half p hmem hroot
    have hmax := h.sizes.le_max p hmem
    have hd : (if d = g.level header.rootPage then NodeKind.leaf else .internal) =
        if g.level p = 0 then .leaf else .internal := if_congr (by omega) rfl rfl
    rw [hsize, hd]
    simp only [reduceCtorEq, if_false, Nat.add_zero] at hhalf
    exact ⟨hhalf, hmax⟩
  · intro hne
    have hroot := h.sizes.ge_root
    rw [if_neg hne] at hroot
    rw [hsize]
    exact hroot
  · intro d p n e hp hn he
    obtain ⟨hmem, -⟩ := h.below hp
    have hC : (view s).children p = n.items := by simp [view, hn, IndexPage.children]
    exact (h.tree.child p hmem e (hC.symm ▸ he)).2.2.1
  · obtain ⟨hin, hcells⟩ := h.leavesBelow_cells _ h.tree.root_mem rfl
    have hhi : g.hi header.rootPage = ⊤ := h.tree.root_hi
    rw [h.tree.root_lo, hhi] at hcells
    cases hps : leavesBelow s (g.level header.rootPage) header.rootPage with
    | nil => trivial
    | cons p ps =>
        rw [hps] at hin hcells
        obtain ⟨hlo, -, hrest⟩ := hcells
        obtain ⟨hp, hl⟩ := hin p (by simp)
        obtain ⟨n, hn, -⟩ := h.exists_leaf hp hl
        obtain ⟨hnext, hlinked⟩ := h.linked ps hp hl hn (fun x hx => hin x (by simp [hx])) hrest
        refine ⟨⟨n, hn, ?_, hnext⟩, hlinked⟩
        have hprev := h.tree.prev p hp hl
        simp only [view, hn, IndexPage.prev] at hprev
        rcases hprev with ⟨-, hend⟩ | ⟨hmem, -, hhi, -⟩
        · exact hend
        · have hlt := h.tree.lo_lt_hi _ hmem
          rw [hhi, hlo] at hlt
          exact absurd hlt not_lt_bot
  · intro d p n m k c k₀ hp hn he hm hk₀ hpath
    obtain ⟨hmem, -⟩ := h.below hp
    have hC : (view s).children p = n.items := by simp [view, hn, IndexPage.children]
    obtain ⟨hcm, -, -, hkey⟩ := h.tree.child p hmem (k, c) (hC.symm ▸ he)
    have hlo : g.lo c ≠ ⊥ := fun hbot => hpath (h.firstChildPath hcm hbot)
    have hCc : (view s).children c = m.items := by simp [view, hm, IndexPage.children]
    have hcl : g.level c ≠ 0 := by
      intro hl
      obtain ⟨m', hm', -⟩ := h.exists_leaf hcm hl
      rw [hm] at hm'
      cases hm'
    have hcells := h.tree.cells c hcm hcl
    rw [hCc] at hcells
    cases hitems : m.items with
    | nil => simp [hitems] at hk₀
    | cons e items =>
        rw [hitems] at hk₀ hcells
        obtain rfl : e.1 = k₀ := by simpa using hk₀
        obtain ⟨-, -, -, hkey₀⟩ := h.tree.child c hcm e (by rw [hCc, hitems]; simp)
        have hlo₀ : g.lo e.2 = g.lo c := hcells.1
        rw [hlo₀] at hkey₀
        rw [← place_inj, (hkey₀.resolve_left hlo).2, (hkey.resolve_left hlo).2]

/-- **Every reachable index.** After any sequence of operations on a new index, `validate_tree`
returns true, and the tree is empty or has the shape of a B+ tree. -/
theorem reachable_shape [Inhabited K] (ho : OrdersKeys comparator InTree)
    (attrLength internalMaxSize leafMaxSize : Int)
    (hinternal : 6 ≤ (newFileHeader attrLength internalMaxSize leafMaxSize).internalMaxSize)
    (hleaf : 4 ≤ (newFileHeader attrLength internalMaxSize leafMaxSize).leafMaxSize)
    (ops : List (IndexOp K)) (hkeys : ∀ op ∈ ops, InTree op.key) (fuel : ℕ)
    (hfuel : ops.length ≤ fuel) (header₀ : IndexFileHeader) :
    ∃ rcs header s, exec flat (do
          let _ ← create attrLength internalMaxSize leafMaxSize
          runOps comparator fuel ops) header₀ .created = some ((rcs, header), s) ∧
      header.leafMaxSize = (newFileHeader attrLength internalMaxSize leafMaxSize).leafMaxSize ∧
      header.internalMaxSize =
        (newFileHeader attrLength internalMaxSize leafMaxSize).internalMaxSize ∧
      exec flat (validateTree comparator fuel) header s = some ((true, header), s) ∧
      (header.rootPage = bpInvalidPageNum ∨ ∃ height, IndexShape header s height) := by
  obtain ⟨s₀, hcreate, h₀⟩ := create_ok InTree hinternal hleaf header₀
  obtain ⟨header, s, hrun, h, hl, hi⟩ := runOps_ok ho ops h₀ hkeys fuel (by omega)
  have hlength := length_reference_run_le ops SortedSet.empty
  have hvalid := validateTree_ok ho h fuel (by omega) (hlength.trans (by simpa [SortedSet.empty]
    using hfuel))
  refine ⟨(reference ops .empty).1, header, s, ?_, hl, hi, hvalid, ?_⟩
  · simp only [exec_bind, hcreate, andThen_some]
    exact hrun
  · rcases h with ⟨hempty, -⟩ | ⟨g, hinv, -, -⟩
    · exact Or.inl hempty.root
    · exact Or.inr ⟨_, hinv.indexShape⟩

end shape

/-- Three operations on integer keys. -/
theorem reachable_shape_run : ∃ rcs header s,
    exec flat (do
        let _ ← create 4 6 4
        runOps (fun a b : Int => a - b) 3 [.insertEntry 3 ⟨1, 0⟩, .insertEntry 5 ⟨1, 1⟩,
          .deleteEntry 3]) default .created = some ((rcs, header), s) ∧
      header.leafMaxSize = 4 ∧ header.internalMaxSize = 6 ∧
      exec flat (validateTree (fun a b : Int => a - b) 3) header s = some ((true, header), s) ∧
      (header.rootPage = bpInvalidPageNum ∨ ∃ height, IndexShape header s height) := by
  have ho : OrdersKeys (fun a b : Int => a - b) fun _ => True :=
    ⟨fun a b _ _ h => by omega, fun a _ => by omega, fun a b _ _ h => by omega⟩
  exact reachable_shape ho 4 6 4 (by decide) (by decide) _ (fun _ _ => trivial) 3
    (by decide) default

end Miniob.Storage.Index
