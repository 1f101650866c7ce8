import Miniob.Storage.Index.Delete

/-!
# Deleting keeps the invariant

* `adjustRoot_ok`: a root that has lost its last item or its last but one child.
* `coalesceOrRedistribute_ok`: refilling a short node, by induction on the distance to the root.
* `deleteEntry_ok`: an entry that is there is taken out, and only it; a key that is not there is
  reported and nothing changes.
-/

namespace Miniob.Storage.Index

open Miniob.Lib
open Miniob.Storage.BufferPool (FlatPool flat)

variable {K B : Type} [LinearOrder B] [BoundedOrder B] {comparator : K → K → Int}
  {InTree : K → Prop} {pos : K → B} {header header' : IndexFileHeader}
  {s s' : FlatPool (IndexPage K)} {g : Ghost B} {p q P : Int} {key : K}

/-! ## The root -/

/-- The outcome of refilling: the tree has the same entries, no short node, and is not higher; it
may have become empty. -/
structure Refilled (InTree : K → Prop) (pos : K → B) (header : IndexFileHeader)
    (s : FlatPool (IndexPage K)) (g : Ghost B) (header' : IndexFileHeader)
    (s' : FlatPool (IndexPage K)) : Prop where
  /-- The capacities are the same. -/
  leaf_max : header'.leafMaxSize = header.leafMaxSize
  /-- The capacities are the same. -/
  internal_max : header'.internalMaxSize = header.internalMaxSize
  /-- The file is an index with the same entries. -/
  inv : EmptyInv header' s' ∧ (∀ e, ¬ Holds (view s) g e) ∨
    ∃ g' : Ghost B, IndexInv InTree pos header' s' g' none none ∧
      (∀ e, Holds (view s') g' e ↔ Holds (view s) g e) ∧
      g'.level header'.rootPage ≤ g.level header.rootPage

omit [LinearOrder B] [BoundedOrder B] in
/-- A short node that is not short after all. -/
theorem SizeInv.not_short {v : View K} (h : SizeInv header v g (some p))
    (hroot : p = header.rootPage → (if g.level p = 0 then 1 else 2) ≤ v.size p)
    (hhalf : p ≠ header.rootPage → levelMax header (g.level p) / 2 ≤ v.size p) :
    SizeInv header v g none := by
  refine ⟨h.leaf_max, h.internal_max, h.le_max, fun x hx hxr => ?_, ?_⟩
  · by_cases hxp : x = p
    · subst hxp
      exact (hhalf hxr).trans (Nat.le_add_right _ _)
    · have := h.ge_half x hx hxr
      rw [if_neg (fun heq => hxp (Option.some.inj heq).symm)] at this
      exact this.trans (Nat.le_add_right _ _)
  · by_cases hrp : p = header.rootPage
    · exact hrp ▸ (hroot hrp).trans (Nat.le_add_right _ _)
    · have := h.ge_root
      rw [if_neg (fun heq => hrp (Option.some.inj heq))] at this
      exact this.trans (Nat.le_add_right _ _)

/-- A short node that is not short after all. -/
theorem IndexInv.not_short (h : IndexInv InTree pos header s g none (some p))
    (hroot : p = header.rootPage → (if g.level p = 0 then 1 else 2) ≤ (view s).size p)
    (hhalf : p ≠ header.rootPage → levelMax header (g.level p) / 2 ≤ (view s).size p) :
    Refilled InTree pos header s g header s :=
  ⟨rfl, rfl, Or.inr ⟨g, ⟨h.tree, h.sizes.not_short hroot hhalf, h.store⟩, fun _ => Iff.rfl, le_rfl⟩⟩

/-- The bookkeeping after the root page has been replaced. -/
theorem StoreInv.replaceRoot {nodes : Set Int} (h : StoreInv header s nodes) (hp : p ∈ nodes)
    (root : Int) (hbitmap : s'.bitmap = (s.dispose p).bitmap) (hcount : s'.pageCount = s.pageCount)
    (hfirst : s'.page firstIndexPage = .header { header with rootPage := root }) :
    StoreInv { header with rootPage := root } s' (nodes \ {p}) := by
  have hstore : StoreInv header (s'.set firstIndexPage (.header header)) (nodes \ {p}) :=
    h.dispose hp hbitmap hcount (by simp [h.header_page])
  exact ⟨hfirst, hstore.beyond, hstore.reserved, hstore.nodes⟩

/-- **`adjust_root`.** -/
theorem adjustRoot_ok (h : IndexInv InTree pos header s g none (some header.rootPage))
    (hsize : (view s).size header.rootPage ≤ 1) :
    ∃ header' s', exec flat (adjustRoot header.rootPage) header s =
        some ((.success, header'), s') ∧ Refilled InTree pos header s g header' s' := by
  have hmem := h.tree.root_mem
  have hr₁ := h.store.ne_first hmem
  by_cases hl : g.level header.rootPage = 0
  · obtain ⟨n, hn, hE, -, hs⟩ := h.exists_leaf hmem hl
    by_cases hempty : n.items.length = 0
    · -- the last entry is gone
      refine ⟨{ header with rootPage := bpInvalidPageNum }, (s.set firstIndexPage
        (.header { header with rootPage := bpInvalidPageNum })).dispose header.rootPage, ?_, rfl,
        rfl, Or.inl ⟨⟨rfl, h.sizes.leaf_max, h.sizes.internal_max, ?_⟩, ?_⟩⟩
      · simp [adjustRoot, hn, IndexPage.isLeaf, IndexPage.size, hempty, exec_updateRootPageNum,
          h.store.header_page]
      · have hstore : StoreInv { header with rootPage := bpInvalidPageNum } ((s.set firstIndexPage
            (.header { header with rootPage := bpInvalidPageNum })).dispose header.rootPage)
            (g.nodes \ {header.rootPage}) :=
          h.store.replaceRoot hmem bpInvalidPageNum rfl rfl (by simp)
        exact ⟨hstore.header_page, hstore.beyond, hstore.reserved, by simp⟩
      · rintro e ⟨x, hx, he⟩
        have hxr : x = header.rootPage := by
          by_contra hne
          have := h.tree.level_lt hx hne
          omega
        rw [hxr, hE, List.eq_nil_of_length_eq_zero hempty] at he
        cases he
    · refine ⟨header, s, ?_, h.not_short (fun _ => ?_) (fun hne => absurd rfl hne)⟩
      · simp [adjustRoot, hn, IndexPage.isLeaf, IndexPage.size, Nat.pos_of_ne_zero hempty]
      · rw [if_pos hl, hs]
        omega
  · -- the only child is the new root
    obtain ⟨n, hn, hC, -, hs⟩ := h.exists_internal hmem hl
    have hge := h.sizes.ge_root
    rw [if_neg hl, if_pos rfl, hs] at hge
    obtain ⟨⟨k, c⟩, hitems⟩ : ∃ e, n.items = [e] := List.length_eq_one_iff.mp (by omega)
    rw [hitems] at hC
    obtain ⟨hcm, hcl, -⟩ := h.tree.of_mem_children hmem (c := c) (by simp [hC])
    have hcr : c ≠ header.rootPage := h.tree.ne_root_of_mem_children hmem (by simp [hC])
    have hc₁ := h.store.ne_first hcm
    generalize hs' : ((s.set c ((s.page c).setParentPageNum bpInvalidPageNum)).set firstIndexPage
      (.header { header with rootPage := c })).dispose header.rootPage = s'
    have hpages : ∀ x ∈ g.nodes, s'.page x =
        if x = c then (s.page c).setParentPageNum bpInvalidPageNum else s.page x := fun x hx => by
      simp [← hs', h.store.ne_first hx]
    have hagree : (view s').AgreesOn (g.nodes \ {header.rootPage}) ((view s).shrinkRoot c) := by
      rintro x ⟨hx, -⟩
      have hpx := hpages x hx
      by_cases hxc : x = c
      · subst hxc
        simp [view, View.shrinkRoot, hpx, IndexPage.parent_setParent _ _ (h.kind_ne_none hx)]
      · simp [view, View.shrinkRoot, hpx, hxc]
    have hsizes : ∀ x ∈ g.nodes, (view s').size x = (view s).size x := fun x hx => by
      have hpx := hpages x hx
      by_cases hxc : x = c
      · subst hxc
        simp [View.size, view, hpx]
      · simp [View.size, view, hpx, hxc]
    refine ⟨{ header with rootPage := c }, s', ?_, rfl, rfl, Or.inr ⟨g.shrinkRoot header.rootPage,
      ⟨(h.tree.shrinkRoot hC).congr hagree, ⟨h.sizes.leaf_max, h.sizes.internal_max, ?_, ?_, ?_⟩,
        h.store.replaceRoot hmem c (by rw [← hs']; rfl) (by rw [← hs']; rfl) (by simp [← hs'])⟩,
      fun e => ?_, ?_⟩⟩
    · simp [adjustRoot, hn, IndexPage.isLeaf, IndexPage.size, hitems, exec_updateRootPageNum,
        h.store.header_page, hc₁.symm, ← hs']
    · rintro x ⟨hx, -⟩
      rw [hsizes x hx]
      exact h.sizes.le_max x hx
    · rintro x ⟨hx, hxr⟩ -
      have hhalf := h.sizes.ge_half x hx hxr
      rw [if_neg (fun heq => hxr (Option.some.inj heq).symm)] at hhalf
      rw [hsizes x hx]
      exact hhalf
    · have hhalf := h.sizes.ge_half c hcm hcr
      have hfour := h.sizes.four_le (g.level c)
      rw [if_neg (fun heq => hcr (Option.some.inj heq).symm)] at hhalf
      rw [hsizes c hcm]
      split <;> simp only [reduceCtorEq, if_false] <;> omega
    · unfold Holds
      constructor
      · rintro ⟨x, ⟨hx, hxr⟩, he⟩
        rw [(hagree x ⟨hx, hxr⟩).2.2.2.1] at he
        exact ⟨x, hx, he⟩
      · rintro ⟨x, hx, he⟩
        have hxr : x ≠ header.rootPage := by
          rintro rfl
          rw [h.tree.internal_entries _ hx hl] at he
          cases he
        refine ⟨x, ⟨hx, hxr⟩, ?_⟩
        rw [(hagree x ⟨hx, hxr⟩).2.2.2.1]
        exact he
    · exact h.tree.level_le c hcm

/-! ## Going up -/

/-- The last key of a short node lies in its interval. -/
theorem IndexInv.last_key (h : IndexInv InTree pos header s g none (some p)) (hp : p ∈ g.nodes)
    (hroot : p ≠ header.rootPage) :
    ∃ key, (s.page p).keyAt? ((s.page p).size - 1) = some key ∧ InTree key ∧ g.lo p ≤ pos key ∧
      pos key < g.hi p := by
  have hhalf := h.sizes.ge_half p hp hroot
  have hfour := h.sizes.four_le (g.level p)
  rw [if_pos rfl] at hhalf
  by_cases hl : g.level p = 0
  · obtain ⟨n, hn, hE, -, hs⟩ := h.exists_leaf hp hl
    rw [hs] at hhalf
    obtain ⟨E, e, hitems⟩ : ∃ E e, n.items = E ++ [e] :=
      List.eq_nil_or_concat' n.items |>.resolve_left fun hnil => by simp [hnil] at hhalf; omega
    obtain ⟨hin, hlo, hhi⟩ := h.tree.entry p hp e (by simp [hE, hitems])
    exact ⟨e.1, by simp [hn, IndexPage.keyAt?, IndexPage.size, hitems], hin, hlo, hhi⟩
  · -- the last of at least two children: its key is its lower bound
    obtain ⟨n, hn, hC, -, hs⟩ := h.exists_internal hp hl
    rw [hs] at hhalf
    have hsix := hfour.2 hl
    obtain ⟨C, e, hitems⟩ : ∃ C e, n.items = C ++ [e] :=
      List.eq_nil_or_concat' n.items |>.resolve_left fun hnil => by simp [hnil] at hhalf; omega
    have hCne : C ≠ [] := by
      rintro rfl
      simp [hitems] at hhalf
      omega
    obtain ⟨hin, hpos⟩ := h.tree.key_eq hp (e := e) (by
      rw [hC, hitems, List.tail_append_of_ne_nil hCne]
      simp)
    have hcells := cells_mem (h.tree.cells p hp hl) (c := e.2) (by simp [hC, hitems])
    refine ⟨e.1, by simp [hn, IndexPage.keyAt?, IndexPage.size, hitems], hin, ?_, ?_⟩
    · rw [hpos]
      exact hcells.1
    · rw [hpos]
      exact hcells.2.1.trans_le hcells.2.2

/-- The parent of a node other than the root, with the node's place in it, where a search for a key
of the node's interval ends. -/
theorem IndexInv.exists_parent {short : Option Int} (ho : KeyOrder comparator InTree pos)
    (h : IndexInv InTree pos header s g none short) (hp : p ∈ g.nodes) (hroot : p ≠ header.rootPage)
    (hkey : InTree key) (hlo : g.lo p ≤ pos key) (hhi : pos key < g.hi p) :
    ∃ P N l₁ kp l₂, (s.page p).parentPageNum = P ∧ P ∈ g.nodes ∧ P ≠ bpInvalidPageNum ∧
      s.page P = .internal N ∧ N.items = l₁ ++ (kp, p) :: l₂ ∧ g.level p + 1 = g.level P ∧
      (N.lookup comparator key).1 = l₁.length := by
  obtain ⟨hP, hpP⟩ := h.tree.up p hp hroot (by simp)
  have hPl := (h.tree.of_mem_children hP hpP).2.1
  obtain ⟨N, hN, hC, -⟩ := h.exists_internal hP (by omega)
  have hb := cells_mem (h.tree.cells _ hP (by omega)) hpP
  obtain ⟨l₁, k, c, l₂, hc, hlo', hhi', h₁, hk, h₂⟩ := h.tree.exists_slot hP (by omega)
    (hb.1.trans hlo) (hhi.trans_le hb.2.2)
  obtain ⟨hcm, hcl, -⟩ := h.tree.of_mem_children hP (c := c) (by simp [hc])
  obtain rfl : c = p := h.tree.unique hcm hp (by omega) hlo' hhi' hlo hhi
  have hlookup := internal_lookup ho hkey N.parent c h₁ hk h₂
  rw [hC] at hc
  rw [← hc] at hlookup
  refine ⟨_, N, l₁, k, l₂, rfl, hP, fun heq => ?_, hN, hc, hPl, by rw [hlookup]⟩
  have := h.tree.nonneg _ hP
  rw [show (view s).parent c = bpInvalidPageNum from heq, bpInvalidPageNum] at this
  omega

/-- A parent has a child before or after the given one. -/
theorem IndexInv.exists_neighbour (h : IndexInv InTree pos header s g none (some p))
    {N : InternalIndexNode K} {l₁ l₂ : List (K × Int)} {kp : K} (hP : P ∈ g.nodes)
    (hN : s.page P = .internal N) (hitems : N.items = l₁ ++ (kp, p) :: l₂) :
    (∃ kq q m₂, l₁ = [] ∧ l₂ = (kq, q) :: m₂) ∨ ∃ m₁ kq q, l₁ = m₁ ++ [(kq, q)] := by
  have hC : (view s).children P = N.items := by simp [view, hN, IndexPage.children]
  have hl : g.level P ≠ 0 := h.tree.level_ne_zero hP (c := p) (by simp [hC, hitems])
  have hpP : P ≠ p := by
    rintro rfl
    have := (h.tree.of_mem_children hP (c := P) (by simp [hC, hitems])).2.1
    omega
  have hsize : 2 ≤ N.items.length := by
    obtain ⟨n, hn, -, -, hs⟩ := h.exists_internal hP hl
    obtain rfl : N = n := by rw [hN] at hn; exact IndexPage.internal.inj hn
    have hnot : ¬ some p = some P := fun heq => hpP (Option.some.inj heq).symm
    by_cases hroot : P = header.rootPage
    · subst hroot
      have := h.sizes.ge_root
      rw [if_neg hl, if_neg hnot, hs] at this
      exact this
    · have hhalf := h.sizes.ge_half P hP hroot
      have hfour := h.sizes.four_le (g.level P)
      rw [if_neg hnot, hs] at hhalf
      omega
  rcases List.eq_nil_or_concat' l₁ with rfl | ⟨m₁, ⟨kq, q⟩, rfl⟩
  · rcases l₂ with _ | ⟨⟨kq, q⟩, m₂⟩
    · simp [hitems] at hsize
    · exact Or.inl ⟨kq, q, m₂, rfl, rfl⟩
  · exact Or.inr ⟨m₁, kq, q, rfl⟩

omit [LinearOrder B] [BoundedOrder B] in
/-- The step of `coalesce_or_redistribute` on a node with a parent. -/
theorem exec_coalesceOrRedistribute {N : InternalIndexNode K} {kind : NodeKind} {index : ℕ}
    {e : K × Int} (fuel : ℕ) (hless : (s.page p).size < minSize header kind)
    (hparent : (s.page p).parentPageNum = P) (hP : P ≠ bpInvalidPageNum)
    (hN : s.page P = .internal N) (hkey : (s.page p).keyAt? ((s.page p).size - 1) = some key)
    (hlookup : (N.lookup comparator key).1 = index) (hindex : index < N.items.length)
    (hq : N.items[if index = 0 then 1 else index - 1]? = some e) :
    exec flat (coalesceOrRedistribute comparator (fuel + 1) kind p) header s =
      if (s.page p).size + (s.page e.2).size > maxSize header kind then
        exec flat (redistribute kind e.2 p P index) header s
      else exec flat (coalesce (coalesceOrRedistribute comparator fuel .internal) kind e.2 p P
        index)
        header s := by
  obtain ⟨f, hf⟩ : ∃ f, N.items[index]? = some f := ⟨_, List.getElem?_eq_getElem hindex⟩
  by_cases h0 : index = 0
  · subst h0
    rw [if_pos rfl] at hq
    simp [coalesceOrRedistribute, hless, hparent, hP, hN, hkey, hlookup, hq, hf]
  · rw [if_neg h0] at hq
    simp [coalesceOrRedistribute, hless, hparent, hP, hN, hkey, hlookup, h0, hq, hf]

/-- The size below which a node of a level is refilled. -/
theorem minSize_levelKind (level : ℕ) :
    minSize header (levelKind level) = levelMax header level - levelMax header level / 2 := by
  simp only [minSize, levelKind, levelMax]

/-- **`coalesce_or_redistribute`.** Refilling a short node. By induction on the distance to the
root. -/
theorem coalesceOrRedistribute_ok (ho : KeyOrder comparator InTree pos) (fuel : ℕ)
    (h : IndexInv InTree pos header s g none (some p)) (hp : p ∈ g.nodes)
    (hfuel : g.level header.rootPage < fuel + g.level p) :
    ∃ header' s', exec flat (coalesceOrRedistribute comparator fuel (levelKind (g.level p)) p)
        header s = some ((.success, header'), s') ∧ Refilled InTree pos header s g header' s' := by
  induction fuel generalizing s g p with
  | zero =>
      have := h.tree.level_le p hp
      omega
  | succ fuel ih =>
      have hsize : ∀ x ∈ g.nodes, (s.page x).size = (view s).size x := fun x _ =>
        IndexPage.size_eq _
      have hfour := h.sizes.four_le (g.level p)
      by_cases hless : (s.page p).size < minSize header (levelKind (g.level p))
      · by_cases hroot : p = header.rootPage
        · -- the root
          have hpar : (s.page p).parentPageNum = bpInvalidPageNum := hroot ▸ h.tree.root_parent
          by_cases hone : 1 < (s.page p).size
          · refine ⟨header, s, ?_, h.not_short (fun _ => ?_) (fun hne => absurd hroot hne)⟩
            · simp [coalesceOrRedistribute, hpar, hone]
            · rw [← hsize p hp]
              split <;> omega
          · subst hroot
            obtain ⟨header', s', hexec, hrefilled⟩ := adjustRoot_ok h (by
              rw [← hsize _ hp]
              omega)
            refine ⟨header', s', ?_, hrefilled⟩
            simp [coalesceOrRedistribute, hless, hpar, hone, hexec]
        · obtain ⟨key, hlast, hkey, hlo, hhi⟩ := h.last_key hp hroot
          obtain ⟨P, N, l₁, kp, l₂, hpar, hP, hP₀, hN, hitems, hlevel, hlookup⟩ :=
            h.exists_parent ho hp hroot hkey hlo hhi
          have hindex : l₁.length < N.items.length := by simp [hitems]
          have hstep := fun e => exec_coalesceOrRedistribute (e := e) fuel hless hpar hP₀ hN hlast
            hlookup hindex
          have hless' := hless
          rw [hsize p hp, minSize_levelKind] at hless'
          -- the recursive call after a merge
          have hup : ∀ s₁ g₁, IndexInv InTree pos header s₁ g₁ none (some P) →
              (∀ e, Holds (view s₁) g₁ e ↔ Holds (view s) g e) → P ∈ g₁.nodes →
              g₁.level = g.level → ∃ header' s',
                exec flat (coalesceOrRedistribute comparator fuel .internal P) header s₁ =
                  some ((.success, header'), s') ∧ Refilled InTree pos header s g header' s' := by
            intro s₁ g₁ hinv hholds hmem hg₁
            obtain ⟨header', s', hexec, hr⟩ := ih hinv hmem (by rw [hg₁]; omega)
            rw [hg₁, levelKind, if_neg (by omega)] at hexec
            refine ⟨header', s', hexec, hr.leaf_max, hr.internal_max, ?_⟩
            rcases hr.inv with ⟨hempty, hnone⟩ | ⟨g', hinv', hholds', hle⟩
            · exact Or.inl ⟨hempty, fun e he => hnone e ((hholds e).mpr he)⟩
            · exact Or.inr ⟨g', hinv', fun e => (hholds' e).trans (hholds e), hg₁ ▸ hle⟩
          rcases h.exists_neighbour hP hN hitems with ⟨kq, q, m₂, rfl, rfl⟩ | ⟨m₁, kq, q, rfl⟩
          · -- the neighbour is at the right
            have hnb : Neighbours s g P N [] kp p kq q m₂ := ⟨hP, hN, hitems⟩
            have hq := (h.tree.neighbours hP hnb.children).2.1
            have hstep := hstep (kq, q) (by simp [hitems])
            by_cases hsum : (s.page p).size + (s.page q).size > maxSize header
              (levelKind (g.level p))
            · obtain ⟨s', g', hexec, hinv, hholds, hg'⟩ := redistribute_right_ok h hnb hless'
                (by rwa [hsize p hp, hsize q hq] at hsum)
              refine ⟨header, s', ?_, rfl, rfl, Or.inr ⟨g', hinv, hholds, by rw [hg']⟩⟩
              rw [hstep, if_pos hsum]
              exact hexec
            · obtain ⟨s₁, g₁, hexec, hinv, hholds, hmem, hg₁⟩ := coalesce_ok
                (coalesceOrRedistribute comparator fuel .internal) 0 h
                (Or.inl ⟨rfl, rfl, rfl, rfl⟩) hnb
                (by rw [hsize p hp, hsize q hq] at hsum; exact not_lt.mp hsum)
              obtain ⟨header', s', hrun, hr⟩ := hup s₁ g₁ hinv hholds hmem hg₁
              refine ⟨header', s', ?_, hr⟩
              rw [hstep, if_neg hsum, ← hrun]
              exact hexec
          · -- the neighbour is at the left
            have hnb : Neighbours s g P N m₁ kq q kp p l₂ := ⟨hP, hN, by simp [hitems]⟩
            have hq := (h.tree.neighbours hP hnb.children).1
            have hstep := hstep (kq, q) (by simp [hitems])
            rw [List.length_append, List.length_singleton] at hstep
            by_cases hsum : (s.page p).size + (s.page q).size > maxSize header
              (levelKind (g.level p))
            · obtain ⟨s', g', hexec, hinv, hholds, hg'⟩ := redistribute_left_ok h hnb hless'
                (by rwa [hsize p hp, hsize q hq] at hsum)
              refine ⟨header, s', ?_, rfl, rfl, Or.inr ⟨g', hinv, hholds, by rw [hg']⟩⟩
              rw [hstep, if_pos hsum]
              exact hexec
            · obtain ⟨s₁, g₁, hexec, hinv, hholds, hmem, hg₁⟩ := coalesce_ok
                (coalesceOrRedistribute comparator fuel .internal) (m₁.length + 1) h
                (Or.inr ⟨by omega, rfl, rfl, rfl⟩) hnb
                (by rw [hsize p hp, hsize q hq] at hsum; exact not_lt.mp hsum)
              obtain ⟨header', s', hrun, hr⟩ := hup s₁ g₁ hinv hholds hmem hg₁
              refine ⟨header', s', ?_, hr⟩
              rw [hstep, if_neg hsum, ← hrun]
              exact hexec
      · -- enough items are left
        have hge := not_lt.mp hless
        rw [minSize_levelKind, hsize p hp] at hge
        refine ⟨header, s, ?_, h.not_short (fun _ => ?_) (fun _ => by omega)⟩
        · simp [coalesceOrRedistribute, not_lt.mp hless]
        · split <;> omega

/-! ## Taking an entry out -/

/-- The leaf without the entry may be short. -/
theorem IndexInv.leaf_remove {n : LeafIndexNode K} {l r : List (K × RID)} {a : K × RID}
    (h : IndexInv InTree pos header s g none none) (hp : p ∈ g.nodes) (hl : g.level p = 0)
    (hn : s.page p = .leaf n) (hitems : n.items = l ++ a :: r) :
    IndexInv InTree pos header (s.set p (.leaf { n with items := l ++ r })) g none (some p) ∧
      ∀ e, Holds (view (s.set p (.leaf { n with items := l ++ r }))) g e ↔
        Holds (view s) g e ∧ e ≠ a := by
  have hE : (view s).entries p = l ++ a :: r := by simp [view, hn, IndexPage.entries, hitems]
  have hsub : List.Sublist (l ++ r) ((view s).entries p) := by
    rw [hE]
    exact List.Sublist.append (List.Sublist.refl l) (List.sublist_cons_self a r)
  have hsorted := h.tree.sorted p hp
  have hagree : (view (s.set p (.leaf { n with items := l ++ r }))).AgreesOn g.nodes
      ((view s).setEntries p (l ++ r)) := by
    intro x _
    by_cases hxp : x = p
    · subst hxp
      simp [view, View.setEntries, hn, IndexPage.kind, IndexPage.parentPageNum, IndexPage.children,
        IndexPage.entries, IndexPage.next, IndexPage.prev]
    · simp [view, View.setEntries, hxp]
  have hsize : ∀ x ∈ g.nodes, (view (s.set p (.leaf { n with items := l ++ r }))).size x +
      (if x = p then 1 else 0) = (view s).size x := by
    intro x hx
    simp only [View.size, (hagree x hx).2.2.1, (hagree x hx).2.2.2.1, View.setEntries]
    by_cases hxp : x = p
    · simp only [hxp, if_true, hE, List.length_append, List.length_cons]
      omega
    · simp [hxp]
  refine ⟨⟨(h.tree.setEntries hp hl (hsorted.sublist hsub) fun e he => h.tree.entry p hp e
    (hsub.subset he)).congr hagree, ⟨h.sizes.leaf_max, h.sizes.internal_max, fun x hx => ?_,
    fun x hx hxr => ?_, ?_⟩, h.store.set hp _⟩, fun e => ?_⟩
  · have := h.sizes.le_max x hx
    have := hsize x hx
    omega
  · have hhalf := h.sizes.ge_half x hx hxr
    simp only [Option.some.injEq, reduceCtorEq, if_false, eq_comm (a := p)] at hhalf ⊢
    rw [hsize x hx]
    exact hhalf
  · have hroot := h.sizes.ge_root
    simp only [Option.some.injEq, reduceCtorEq, if_false, eq_comm (a := p)] at hroot ⊢
    rw [hsize _ h.tree.root_mem]
    exact hroot
  · have hentries : ∀ x ∈ g.nodes, (view (s.set p (.leaf { n with items := l ++ r }))).entries x =
        if x = p then l ++ r else (view s).entries x := fun x hx => (hagree x hx).2.2.2.1
    -- the entry occurs once
    rw [hE, List.pairwise_append, List.pairwise_cons] at hsorted
    have ha : a ∉ l ++ r := fun hmem => by
      rcases List.mem_append.mp hmem with hmem | hmem
      · exact lt_irrefl _ (hsorted.2.2 a hmem a (by simp))
      · exact lt_irrefl _ (hsorted.2.1.1 a hmem)
    have hap := h.tree.entry p hp a (by simp [hE])
    constructor
    · rintro ⟨x, hx, he⟩
      rw [hentries x hx] at he
      split at he
      next hxp => exact ⟨⟨p, hp, hsub.subset he⟩, fun heq => ha (heq ▸ he)⟩
      next hxp =>
        refine ⟨⟨x, hx, he⟩, ?_⟩
        rintro rfl
        have hx₀ : g.level x = 0 := by
          by_contra hne
          rw [h.tree.internal_entries x hx hne] at he
          cases he
        obtain ⟨-, hlo, hhi⟩ := h.tree.entry x hx e he
        exact hxp (h.tree.unique hx hp (by omega) hlo hhi hap.2.1 hap.2.2)
    · rintro ⟨⟨x, hx, he⟩, hne⟩
      refine ⟨x, hx, ?_⟩
      rw [hentries x hx]
      split
      next hxp =>
        rw [hxp, hE] at he
        simp only [List.mem_append, List.mem_cons] at he ⊢
        tauto
      next => exact he

/-- **`delete_entry`.** An entry that is there is taken out, and only it; a key that is not there
is reported and nothing changes. -/
theorem deleteEntry_ok (ho : KeyOrder comparator InTree pos) {height : ℕ} {C : Set (K × RID)}
    (fuel : ℕ) (h : Represents InTree pos header s height C) (hkey : InTree key)
    (hfuel : height ≤ fuel) :
    ((∀ e ∈ C, pos e.1 ≠ pos key) ∧ exec flat (deleteEntry comparator fuel key) header s =
        some ((if header.rootPage = bpInvalidPageNum then .empty else .recordRecordNotExist,
          header), s)) ∨
      ∃ e ∈ C, pos e.1 = pos key ∧
        ∃ header' s', exec flat (deleteEntry comparator fuel key) header s =
            some ((.success, header'), s') ∧
          Represents InTree pos header' s' height (C \ {e}) ∧
          header'.leafMaxSize = header.leafMaxSize ∧
          header'.internalMaxSize = header.internalMaxSize := by
  rcases h with ⟨hempty, rfl⟩ | ⟨g, hinv, hC, hheight⟩
  · refine Or.inl ⟨by simp, ?_⟩
    simp [deleteEntry, findLeaf, findLeafInternal_empty hempty.root, hempty.root]
  · obtain ⟨q, hq, hleaf, ⟨hlo, hhi⟩, hfind⟩ := findLeaf_ok ho hinv.tree.toNodeInv fuel
      (by omega) hkey
    obtain ⟨n, hn, hE, -, hs⟩ := hinv.exists_leaf hq hleaf
    have hin : ∀ e ∈ n.items, InTree e.1 := fun e he => (hinv.tree.entry q hq e (hE ▸ he)).1
    have hsorted := hinv.tree.sorted q hq
    rw [hE] at hsorted
    rcases leaf_lookup ho hkey n hin hsorted with ⟨l, r, hitems, hl, hr, hlookup⟩ |
      ⟨l, a, r, hitems, ha, hl, hr, hlookup⟩
    · refine Or.inl ⟨fun e he hpos => ?_, ?_⟩
      · have hmem := hinv.tree.mem_entries hq hleaf ((hC e).mp he) (hpos ▸ hlo) (hpos ▸ hhi)
        rw [hE, hitems] at hmem
        rcases List.mem_append.mp hmem with hmem | hmem
        · exact (hl e hmem).ne hpos
        · exact (hr e hmem).ne' hpos
      · simp [deleteEntry, hfind, deleteEntryInternal, hn, hlookup, hinv.tree.root_ne_invalid]
    · have haC : a ∈ C := (hC a).mpr ⟨q, hq, by simp [hE, hitems]⟩
      obtain ⟨hinv', hholds⟩ := hinv.leaf_remove hq hleaf hn hitems
      have hremove : n.remove l.length = { n with items := l ++ r } := by
        rw [LeafIndexNode.remove, hitems, List.eraseIdx_append_of_length_le le_rfl]
        simp
      have hlen : l.length < n.items.length := by simp [hitems]
      obtain ⟨header', s', hexec, hrefilled⟩ := coalesceOrRedistribute_ok ho fuel hinv' hq
        (by omega)
      rw [hleaf, levelKind, if_pos rfl] at hexec
      -- with enough items left, refilling would do nothing either
      have hrun : exec flat (deleteEntry comparator fuel key) header s =
          exec flat (coalesceOrRedistribute comparator fuel .leaf q) header
            (s.set q (.leaf { n with items := l ++ r })) := by
        by_cases hless : l.length + r.length < minSize header .leaf
        · simp [deleteEntry, hfind, deleteEntryInternal, hn, hlookup, exec_assert, hlen, hremove,
            IndexPage.size, hless]
        · obtain ⟨m, rfl⟩ : ∃ m, fuel = m + 1 := ⟨fuel - 1, by omega⟩
          simp [deleteEntry, hfind, deleteEntryInternal, hn, hlookup, exec_assert, hlen, hremove,
            IndexPage.size, hless, coalesceOrRedistribute]
      refine Or.inr ⟨a, haC, ha, header', s', hrun.trans hexec, ?_, hrefilled.leaf_max,
        hrefilled.internal_max⟩
      rcases hrefilled.inv with ⟨hempty, hnone⟩ | ⟨g', hinv'', hholds', hle⟩
      · refine Or.inl ⟨hempty, Set.eq_empty_of_forall_notMem fun e he => ?_⟩
        exact hnone e ((hholds e).mpr ⟨(hC e).mp he.1, he.2⟩)
      · refine Or.inr ⟨g', hinv'', fun e => ?_, by omega⟩
        rw [hholds', hholds, ← hC]
        rfl

end Miniob.Storage.Index
