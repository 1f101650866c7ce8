import Miniob.Storage.Index.Find
import Miniob.Storage.Index.Insert

/-!
# `insert_entry`

Inserting a key either finds it in the tree and changes nothing, or adds exactly one entry and
keeps the invariant.

* `leaf_room`, `leaf_split`: the leaf takes the entry, or it is split and its right half is pending.
* `createNewTree_ok`: the first entry of an empty tree.
* `insertEntry_ok`: the operation.
-/

namespace Miniob.Storage.Index

open Miniob.Lib
open Miniob.Storage.BufferPool (FlatPool flat)

variable {K B : Type} [LinearOrder B] [BoundedOrder B] {comparator : K → K → Int}
  {InTree : K → Prop} {pos : K → B} {header : IndexFileHeader} {s s' : FlatPool (IndexPage K)}
  {g : Ghost B} {p : Int} {key : K} {rid : RID} {n : LeafIndexNode K} {E E₁ E₂ : List (K × RID)}

/-! ## The pages after a leaf has been split -/

/-- The file after the leaf `n` on page `p` has been split, the new entry included: `E₁` stays and
`E₂` moves to the new page, which is linked between `p` and the leaf after it. -/
def splitLeaf (s : FlatPool (IndexPage K)) (p : Int) (n : LeafIndexNode K)
    (E₁ E₂ : List (K × RID)) : FlatPool (IndexPage K) :=
  { s.allocate with
    page := fun x =>
      if x = s.freePage then .leaf ⟨n.parent, p, n.nextBrother, E₂⟩
      else if x = p then .leaf { n with nextBrother := s.freePage, items := E₁ }
      else if x = n.nextBrother ∧ n.nextBrother ≠ bpInvalidPageNum then
        (s.page x).setPrev s.freePage
      else s.page x }

theorem FlatPool.ext_page {N : Type} {a b : FlatPool N} (hp : ∀ x, a.page x = b.page x)
    (hc : a.pageCount = b.pageCount) (hb : a.bitmap = b.bitmap) : a = b := by
  cases a
  cases b
  simp only [FlatPool.mk.injEq]
  exact ⟨funext hp, hc, hb⟩

section exec

variable [Inhabited K] {fuel : ℕ}

/-- A full leaf is split and the new entry put into the half its position points to. -/
theorem exec_insertEntryIntoLeafNode_split {i : ℕ} {k₀ : K} {A D : List (K × RID)}
    (hp : s.page p = .leaf n) (hlookup : n.lookup comparator key = (i, false))
    (hfull : ¬ n.items.length < header.leafMaxSize) (hpQ : p ≠ s.freePage)
    (hnext : n.nextBrother ≠ bpInvalidPageNum → n.nextBrother ≠ p ∧ n.nextBrother ≠ s.freePage ∧
      ∃ r, s.page n.nextBrother = .leaf r)
    (hA : n.items.take (n.items.length / 2) = A) (hD : n.items.drop (n.items.length / 2) = D)
    (hE : if i < A.length then E₁ = A.insertIdx i (key, rid) ∧ E₂ = D
      else E₁ = A ∧ E₂ = D.insertIdx (i - A.length) (key, rid))
    (hk₀ : E₂[0]?.map Prod.fst = some k₀) :
    exec flat (insertEntryIntoLeafNode comparator fuel p key rid) header s =
      exec flat (insertEntryIntoParent comparator fuel p s.freePage k₀) header
        (splitLeaf s p n E₁ E₂) := by
  have hsplit : exec flat (split .leaf p) header s = _ := exec_split_leaf hp hpQ
  rw [hA, hD] at hsplit
  -- the writes of the program add up to `splitLeaf`
  have hchain : ∀ {c : FlatPool (IndexPage K)}, (∀ x, c.page x = (splitLeaf s p n E₁ E₂).page x) →
      c.pageCount = s.allocate.pageCount → c.bitmap = s.allocate.bitmap →
      c = splitLeaf s p n E₁ E₂ := fun hpage hcount hbitmap =>
    FlatPool.ext_page hpage hcount hbitmap
  by_cases hend : n.nextBrother = bpInvalidPageNum
  · by_cases hi : i < A.length
    · rw [if_pos hi] at hE
      simp [insertEntryIntoLeafNode, hp, hlookup, maxSize, hfull, hsplit, hpQ, hpQ.symm, hend, hi,
        LeafIndexNode.insert, ← hE.1, ← hE.2, IndexPage.keyAt?, hk₀]
      congr 1
      refine hchain (fun x => ?_) rfl rfl
      by_cases hxQ : x = s.freePage
      · simp [splitLeaf, hxQ, hpQ.symm, hend]
      · by_cases hxp : x = p
        · simp [splitLeaf, hxp, hpQ]
        · simp [splitLeaf, hxQ, hxp, hend, s.allocate_page_of_ne hxQ]
    · rw [if_neg hi] at hE
      simp [insertEntryIntoLeafNode, hp, hlookup, maxSize, hfull, hsplit, hpQ, hpQ.symm, hend, hi,
        LeafIndexNode.insert, ← hE.2, IndexPage.keyAt?, hk₀]
      congr 1
      refine hchain (fun x => ?_) rfl rfl
      by_cases hxQ : x = s.freePage
      · simp [splitLeaf, hxQ, hend]
      · by_cases hxp : x = p
        · simp [splitLeaf, hxp, hpQ, hE.1]
        · simp [splitLeaf, hxQ, hxp, hend, s.allocate_page_of_ne hxQ]
  · obtain ⟨hnp, hnQ, r, hr⟩ := hnext hend
    by_cases hi : i < A.length
    · rw [if_pos hi] at hE
      simp [insertEntryIntoLeafNode, hp, hlookup, maxSize, hfull, hsplit, hpQ, hpQ.symm, hend, hi,
        LeafIndexNode.insert, ← hE.1, ← hE.2, IndexPage.keyAt?, hk₀, hnp, hnp.symm, hnQ, hnQ.symm,
        hr, s.allocate_page_of_ne hnQ]
      congr 1
      refine hchain (fun x => ?_) rfl rfl
      by_cases hxQ : x = s.freePage
      · simp [splitLeaf, hxQ, hpQ.symm, hnQ.symm]
      · by_cases hxp : x = p
        · simp [splitLeaf, hxp, hpQ]
        · by_cases hxn : x = n.nextBrother
          · simp [splitLeaf, hxn, hnp, hnQ, hend, hr, IndexPage.setPrev]
          · simp [splitLeaf, hxQ, hxp, hxn, s.allocate_page_of_ne hxQ]
    · rw [if_neg hi] at hE
      simp [insertEntryIntoLeafNode, hp, hlookup, maxSize, hfull, hsplit, hpQ, hpQ.symm, hend, hi,
        LeafIndexNode.insert, ← hE.2, IndexPage.keyAt?, hk₀, hnp, hnp.symm, hnQ, hnQ.symm,
        hr, s.allocate_page_of_ne hnQ]
      congr 1
      refine hchain (fun x => ?_) rfl rfl
      by_cases hxQ : x = s.freePage
      · simp [splitLeaf, hxQ]
      · by_cases hxp : x = p
        · simp [splitLeaf, hxp, hpQ, hE.1, hnp.symm]
        · by_cases hxn : x = n.nextBrother
          · simp [splitLeaf, hxn, hnp, hnQ, hend, hr, IndexPage.setPrev]
          · simp [splitLeaf, hxQ, hxp, hxn, s.allocate_page_of_ne hxQ]

end exec

/-! ## The invariant -/

section invariant

variable {l r : List (K × RID)}

/-- The entries of a leaf with a new one at its place. -/
theorem IndexInv.sorted_insert (h : IndexInv InTree pos header s g none none) (rid : RID)
    (hp : p ∈ g.nodes) (hn : s.page p = .leaf n) (hitems : n.items = l ++ r) (hkey : InTree key)
    (hlo : g.lo p ≤ pos key) (hhi : pos key < g.hi p) (hl : ∀ e ∈ l, pos e.1 < pos key)
    (hr : ∀ e ∈ r, pos key < pos e.1) :
    ((l ++ (key, rid) :: r).Pairwise fun e f => pos e.1 < pos f.1) ∧
      ∀ e ∈ l ++ (key, rid) :: r, InTree e.1 ∧ g.lo p ≤ pos e.1 ∧ pos e.1 < g.hi p := by
  have hentries : (view s).entries p = l ++ r := by simp [view, hn, IndexPage.entries, hitems]
  have hsorted := h.tree.sorted p hp
  have hentry := h.tree.entry p hp
  rw [hentries] at hsorted hentry
  rw [List.pairwise_append] at hsorted
  constructor
  · refine List.pairwise_append.mpr ⟨hsorted.1, List.pairwise_cons.mpr ⟨hr, hsorted.2.1⟩, ?_⟩
    intro e he f hf
    rcases List.mem_cons.mp hf with rfl | hf
    · exact hl e he
    · exact hsorted.2.2 e he f hf
  · intro e he
    rw [List.mem_append, List.mem_cons] at he
    rcases he with he | rfl | he
    · exact hentry e (List.mem_append_left _ he)
    · exact ⟨hkey, hlo, hhi⟩
    · exact hentry e (List.mem_append_right _ he)

omit [LinearOrder B] [BoundedOrder B] in
/-- One more entry in a leaf is one more entry in the tree. -/
theorem holds_setEntries {v : View K} {a e : K × RID} (hp : p ∈ g.nodes)
    (hmem : e ∈ E ↔ e = a ∨ e ∈ v.entries p) :
    Holds (v.setEntries p E) g e ↔ e = a ∨ Holds v g e := by
  constructor
  · rintro ⟨x, hx, he⟩
    simp only [View.setEntries] at he
    split at he
    next => exact (hmem.mp he).imp_right fun he' => ⟨p, hp, he'⟩
    next => exact Or.inr ⟨x, hx, he⟩
  · intro he
    by_cases hep : e ∈ E
    · exact ⟨p, hp, by simpa only [View.setEntries, if_true] using hep⟩
    · obtain ⟨x, hx, hex⟩ := he.resolve_left fun heq => hep (hmem.mpr (Or.inl heq))
      have hxp : x ≠ p := by
        rintro rfl
        exact hep (hmem.mpr (Or.inr hex))
      exact ⟨x, hx, by simpa only [View.setEntries, if_neg hxp] using hex⟩

/-- The leaf has room: the invariant holds again. -/
theorem IndexInv.leaf_room (h : IndexInv InTree pos header s g none none) (rid : RID)
    (hp : p ∈ g.nodes) (hleaf : g.level p = 0) (hn : s.page p = .leaf n) (hitems : n.items = l ++ r)
    (hkey : InTree key) (hlo : g.lo p ≤ pos key) (hhi : pos key < g.hi p)
    (hl : ∀ e ∈ l, pos e.1 < pos key) (hr : ∀ e ∈ r, pos key < pos e.1)
    (hroom : n.items.length < header.leafMaxSize) :
    IndexInv InTree pos header (s.set p (.leaf { n with items := l ++ (key, rid) :: r })) g none
        none ∧
      ∀ e, Holds (view (s.set p (.leaf { n with items := l ++ (key, rid) :: r }))) g e ↔
        e = (key, rid) ∨ Holds (view s) g e := by
  obtain ⟨hsorted, hentry⟩ := h.sorted_insert rid hp hn hitems hkey hlo hhi hl hr
  have hagree : (view (s.set p (.leaf { n with items := l ++ (key, rid) :: r }))).AgreesOn g.nodes
      ((view s).setEntries p (l ++ (key, rid) :: r)) := by
    intro x hx
    by_cases hxp : x = p
    · subst hxp
      simp [view, View.setEntries, hn, IndexPage.kind, IndexPage.parentPageNum,
        IndexPage.children, IndexPage.entries, IndexPage.next, IndexPage.prev]
    · simp [view, View.setEntries, hxp]
  have hp' : (view s).entries p = l ++ r := by simp [view, hn, IndexPage.entries, hitems]
  refine ⟨⟨(h.tree.setEntries hp hleaf hsorted hentry).congr hagree,
    SizeInv.congr ?_ h.tree.root_mem hagree, h.store.set hp _⟩, fun e => ?_⟩
  swap
  · have hmem : e ∈ l ++ (key, rid) :: r ↔ e = (key, rid) ∨ e ∈ (view s).entries p := by
      rw [hp']
      simp only [List.mem_append, List.mem_cons]
      tauto
    rw [holds_congr fun x hx => (hagree x hx).2.2.2.1]
    exact holds_setEntries hp hmem
  have hsize : ∀ x, ((view s).setEntries p (l ++ (key, rid) :: r)).size x =
      (view s).size x + if x = p then 1 else 0 := fun x => by
    by_cases hxp : x = p
    · subst hxp
      simp only [View.size, View.setEntries, if_true, hp', List.length_append, List.length_cons]
      omega
    · simp [View.size, View.setEntries, hxp]
  refine ⟨h.sizes.leaf_max, h.sizes.internal_max, fun x hx => ?_, fun x hx hxr => ?_, ?_⟩
  · rw [hsize]
    by_cases hxp : x = p
    · have : (view s).size p = n.items.length := by
        simp [View.size, view, hn, IndexPage.children, IndexPage.entries]
      rw [if_pos hxp, hxp, levelMax, hleaf, if_pos rfl, maxSize, this]
      omega
    · rw [if_neg hxp]
      exact h.sizes.le_max x hx
  · rw [hsize]
    have := h.sizes.ge_half x hx hxr
    omega
  · rw [hsize]
    have := h.sizes.ge_root
    omega

/-- The leaf after a leaf. -/
theorem IndexInv.next_leaf {short : Option Int} (h : IndexInv InTree pos header s g none short)
    (hp : p ∈ g.nodes) (hleaf : g.level p = 0) (hn : s.page p = .leaf n)
    (hnext : n.nextBrother ≠ bpInvalidPageNum) :
    n.nextBrother ∈ g.nodes ∧ g.level n.nextBrother = 0 ∧ n.nextBrother ≠ p ∧
      ∃ r, s.page n.nextBrother = .leaf r := by
  have hnext' : (view s).next p = n.nextBrother := by simp [view, hn, IndexPage.next]
  rcases h.tree.next p hp hleaf with ⟨-, hend⟩ | ⟨hmem, hlevel, hlo, -⟩
  · exact absurd (hnext'.symm.trans hend) hnext
  · rw [hnext'] at hmem hlevel hlo
    have hkind : (s.page n.nextBrother).kind = _ := h.tree.kind_eq _ hmem
    rw [if_pos hlevel] at hkind
    refine ⟨hmem, hlevel, fun heq => ?_, IndexPage.exists_leaf hkind⟩
    rw [heq] at hlo
    exact absurd hlo (h.tree.lo_lt_hi p hp).ne

/-- The leaf was full: its right half is pending. -/
theorem IndexInv.leaf_split {k₀ : K} {v₀ : RID} (h : IndexInv InTree pos header s g none none)
    (hp : p ∈ g.nodes) (hleaf : g.level p = 0) (hn : s.page p = .leaf n) (hitems : n.items = l ++ r)
    (hkey : InTree key) (hlo : g.lo p ≤ pos key) (hhi : pos key < g.hi p)
    (hl : ∀ e ∈ l, pos e.1 < pos key) (hr : ∀ e ∈ r, pos key < pos e.1)
    (hE : E₁ ++ (k₀, v₀) :: E₂ = l ++ (key, rid) :: r) (hfull : n.items.length = header.leafMaxSize)
    (hE₁ : header.leafMaxSize / 2 ≤ E₁.length) (hE₂ : header.leafMaxSize / 2 ≤ E₂.length + 1) :
    ∃ g', IndexInv InTree pos header (splitLeaf s p n E₁ ((k₀, v₀) :: E₂)) g'
        (some (p, (s.freePage : Int))) none ∧
      InTree k₀ ∧ pos k₀ = g'.lo s.freePage ∧ g'.nodes = insert (s.freePage : Int) g.nodes ∧
      (∀ x ∈ g.nodes, g'.level x = g.level x) ∧
      header.leafMaxSize / 2 ≤ (view (splitLeaf s p n E₁ ((k₀, v₀) :: E₂))).size p ∧
      ∀ e, Holds (view (splitLeaf s p n E₁ ((k₀, v₀) :: E₂))) g' e ↔
        e = (key, rid) ∨ Holds (view s) g e := by
  obtain ⟨hQ, hQ₂⟩ := h.store.freePage
  have hne : ∀ {x}, x ∈ g.nodes → x ≠ s.freePage := fun hx hxr => hQ (hxr ▸ hx)
  obtain ⟨hsorted, hentry⟩ := h.sorted_insert rid hp hn hitems hkey hlo hhi hl hr
  have htree := h.tree.setEntries hp hleaf hsorted hentry
  have hmax := h.sizes.leaf_max
  rw [← hE] at hsorted hentry
  -- the cut is at the first key of the right half
  have hk₀ := hentry (k₀, v₀) (by simp)
  rw [List.pairwise_append, List.pairwise_cons] at hsorted
  have hbelow : ∀ e ∈ E₁, pos e.1 < pos k₀ := fun e he => hsorted.2.2 e he (k₀, v₀) (by simp)
  have habove : ∀ e ∈ (k₀, v₀) :: E₂, pos k₀ ≤ pos e.1 := by
    intro e he
    rcases List.mem_cons.mp he with rfl | he
    · exact le_rfl
    · exact (hsorted.2.1.1 e he).le
  have hpm : g.lo p < pos k₀ := by
    obtain ⟨e, he⟩ := List.exists_mem_of_ne_nil E₁ (by rintro rfl; simp at hE₁; omega)
    exact (hentry e (List.mem_append_left _ he)).2.1.trans_lt (hbelow e he)
  have hchildren : ((view s).setEntries p (l ++ (key, rid) :: r)).children p = [] ++ [] :=
    h.tree.leaf_children p hp hleaf
  have hentries : ((view s).setEntries p (l ++ (key, rid) :: r)).entries p =
      E₁ ++ (k₀, v₀) :: E₂ := by simp only [View.setEntries, if_true, hE]
  have hsplit := htree.split hp hQ (by omega) hpm hk₀.2.2 hchildren hentries
    (fun hl => absurd hleaf hl) hbelow habove
  have hagree : (view (splitLeaf s p n E₁ ((k₀, v₀) :: E₂))).AgreesOn
      (insert (s.freePage : Int) g.nodes)
      (((view s).setEntries p (l ++ (key, rid) :: r)).split p s.freePage [] [] E₁
        ((k₀, v₀) :: E₂)) := by
    rintro x (rfl | hx)
    · simp [view, View.setEntries, View.split, splitLeaf, hn, IndexPage.kind,
        IndexPage.parentPageNum, IndexPage.children, IndexPage.entries, IndexPage.next,
        IndexPage.prev]
    · have hxQ := hne hx
      have hx₀ : x ≠ bpInvalidPageNum := fun heq => by
        have := h.tree.nonneg x hx
        rw [heq, bpInvalidPageNum] at this
        omega
      by_cases hxn : x = n.nextBrother
      · obtain ⟨-, -, hnp, r', hr'⟩ := h.next_leaf hp hleaf hn (hxn ▸ hx₀)
        rw [← hxn] at hnp hr'
        simp [view, View.setEntries, View.split, splitLeaf, hxQ, hnp, ← hxn, hx₀, hn, hr',
          IndexPage.setPrev, IndexPage.kind, IndexPage.parentPageNum, IndexPage.children,
          IndexPage.entries, IndexPage.next, IndexPage.prev]
      · by_cases hxp : x = p
        · subst hxp
          simp [view, View.setEntries, View.split, splitLeaf, hxQ, hxn, hn, IndexPage.kind,
            IndexPage.parentPageNum, IndexPage.children, IndexPage.entries, IndexPage.next,
            IndexPage.prev]
        · simp [view, View.setEntries, View.split, splitLeaf, hxQ, hxp, hxn, hn, IndexPage.next]
  have hent : ∀ x ∈ insert (s.freePage : Int) g.nodes,
      (view (splitLeaf s p n E₁ ((k₀, v₀) :: E₂))).entries x =
        if x = s.freePage then (k₀, v₀) :: E₂ else if x = p then E₁ else (view s).entries x := by
    intro x hx
    rw [(hagree x hx).2.2.2.1]
    simp only [View.split, View.setEntries]
    split
    · rfl
    · split <;> rfl
  have hchi : ∀ x ∈ insert (s.freePage : Int) g.nodes,
      (view (splitLeaf s p n E₁ ((k₀, v₀) :: E₂))).children x =
        if x = s.freePage ∨ x = p then [] else (view s).children x := by
    intro x hx
    rw [(hagree x hx).2.2.1]
    simp only [View.split, View.setEntries]
    split
    next hxQ => simp [hxQ]
    next hxQ => split <;> simp [*]
  have hsizep : (view (splitLeaf s p n E₁ ((k₀, v₀) :: E₂))).size p = E₁.length := by
    simp [View.size, hent p (Set.mem_insert_of_mem _ hp), hchi p (Set.mem_insert_of_mem _ hp),
      hne hp]
  have hsizeQ : (view (splitLeaf s p n E₁ ((k₀, v₀) :: E₂))).size s.freePage = E₂.length + 1 := by
    simp [View.size, hent _ (Set.mem_insert _ _), hchi _ (Set.mem_insert _ _)]
  refine ⟨g.split p s.freePage (pos k₀), ⟨hsplit.congr hagree, ?_, ?_⟩, hk₀.1, ?_, rfl, ?_,
    by omega, fun e => ?_⟩
  · have hlmax : levelMax header (g.level p) = header.leafMaxSize := by
      rw [levelMax, if_pos hleaf, maxSize]
    have hlen := congrArg List.length hE
    have hlen' := congrArg List.length hitems
    simp only [List.length_append, List.length_cons] at hlen hlen'
    refine h.sizes.split hQ (fun x hx hxp => ?_) (by omega) (by omega) (by omega) (by omega)
      h.tree.root_mem
    simp [View.size, hent x (Set.mem_insert_of_mem _ hx), hchi x (Set.mem_insert_of_mem _ hx),
      hne hx, hxp]
  · refine h.store.allocate.congr rfl rfl ?_
    have hQ₁ : firstIndexPage ≠ (s.freePage : Int) := by rw [firstIndexPage]; omega
    have hn₁ : ¬ (firstIndexPage = n.nextBrother ∧ n.nextBrother ≠ bpInvalidPageNum) := fun hand =>
      h.store.ne_first (h.next_leaf hp hleaf hn hand.2).1 hand.1.symm
    simp only [splitLeaf]
    rw [if_neg hQ₁, if_neg (h.store.ne_first hp).symm, if_neg hn₁,
      FlatPool.allocate_page_of_ne hQ₁]
  · simp only [Ghost.split, if_true]
  · intro x hx
    simp only [Ghost.split, if_neg (hne hx)]
  · have hmem : e ∈ E₁ ∨ e ∈ (k₀, v₀) :: E₂ ↔ e = (key, rid) ∨ e ∈ (view s).entries p := by
      have hp' : (view s).entries p = l ++ r := by simp [view, hn, IndexPage.entries, hitems]
      rw [← List.mem_append, hE, hp']
      simp only [List.mem_append, List.mem_cons]
      tauto
    constructor
    · rintro ⟨x, hx, he⟩
      rw [hent x hx] at he
      split at he
      next => exact (hmem.mp (Or.inr he)).imp_right fun he' => ⟨p, hp, he'⟩
      next hxQ =>
        split at he
        next => exact (hmem.mp (Or.inl he)).imp_right fun he' => ⟨p, hp, he'⟩
        next => exact Or.inr ⟨x, hx.resolve_left hxQ, he⟩
    · intro he
      by_cases hep : e ∈ E₁ ∨ e ∈ (k₀, v₀) :: E₂
      · rcases hep with he | he
        · exact ⟨p, Set.mem_insert_of_mem _ hp, by
            rw [hent p (Set.mem_insert_of_mem _ hp), if_neg (hne hp), if_pos rfl]; exact he⟩
        · exact ⟨_, Set.mem_insert _ _, by rw [hent _ (Set.mem_insert _ _), if_pos rfl]; exact he⟩
      · obtain ⟨x, hx, hex⟩ := he.resolve_left fun heq => hep (hmem.mpr (Or.inl heq))
        have hxp : x ≠ p := by
          rintro rfl
          exact hep (hmem.mpr (Or.inr hex))
        exact ⟨x, Set.mem_insert_of_mem _ hx, by
          rw [hent x (Set.mem_insert_of_mem _ hx), if_neg (hne hx), if_neg hxp]; exact hex⟩

end invariant

/-! ## The operation -/

section operation

variable [Inhabited K] {fuel : ℕ}

/-- A full leaf is split at its middle, with the new entry at its place in one of the halves. -/
theorem exists_leaf_halves (rid : RID) (fuel : ℕ) {l r : List (K × RID)}
    (h : IndexInv InTree pos header s g none none) (hp : p ∈ g.nodes) (hleaf : g.level p = 0)
    (hn : s.page p = .leaf n) (hitems : n.items = l ++ r)
    (hlookup : n.lookup comparator key = (l.length, false))
    (hroom : ¬ n.items.length < header.leafMaxSize) :
    ∃ E₁ k₀ v₀ E₂, E₁ ++ (k₀, v₀) :: E₂ = l ++ (key, rid) :: r ∧
      header.leafMaxSize / 2 ≤ E₁.length ∧ header.leafMaxSize / 2 ≤ E₂.length + 1 ∧
      n.items.length = header.leafMaxSize ∧
      exec flat (insertEntryIntoLeafNode comparator fuel p key rid) header s =
        exec flat (insertEntryIntoParent comparator fuel p s.freePage k₀) header
          (splitLeaf s p n E₁ ((k₀, v₀) :: E₂)) := by
  obtain ⟨hQ, -⟩ := h.store.freePage
  have hpQ : p ≠ s.freePage := fun heq => hQ (heq ▸ hp)
  have hmax := h.sizes.leaf_max
  have hfull : n.items.length = header.leafMaxSize := by
    have hle := h.sizes.le_max p hp
    have hsize : (view s).size p = n.items.length := by
      simp [View.size, view, hn, IndexPage.children, IndexPage.entries]
    rw [hsize, levelMax, if_pos hleaf, maxSize] at hle
    omega
  have hnext : n.nextBrother ≠ bpInvalidPageNum → n.nextBrother ≠ p ∧ n.nextBrother ≠ s.freePage ∧
      ∃ r, s.page n.nextBrother = .leaf r := fun hne => by
    obtain ⟨hmem, -, hnp, hr⟩ := h.next_leaf hp hleaf hn hne
    exact ⟨hnp, fun heq => hQ (heq ▸ hmem), hr⟩
  have hlenA : (n.items.take (n.items.length / 2)).length = n.items.length / 2 := by
    rw [List.length_take]
    omega
  by_cases hcase : l.length < n.items.length / 2
  · -- the new entry goes into the left half
    obtain ⟨m₁, m₂, rfl, hlen⟩ : ∃ m₁ m₂, r = m₁ ++ m₂ ∧ (l ++ m₁).length = n.items.length / 2 := by
      refine ⟨r.take (n.items.length / 2 - l.length), _, (List.take_append_drop _ _).symm, ?_⟩
      have := congrArg List.length hitems
      rw [List.length_append] at this
      rw [List.length_append, List.length_take]
      omega
    have hcut : n.items = (l ++ m₁) ++ m₂ := by rw [hitems, List.append_assoc]
    have htake : n.items.take (n.items.length / 2) = l ++ m₁ := by
      rw [← hlen, hcut, List.take_left]
    have hdrop : n.items.drop (n.items.length / 2) = m₂ := by rw [← hlen, hcut, List.drop_left]
    have hlen₂ : header.leafMaxSize / 2 ≤ m₂.length := by
      have := congrArg List.length hcut
      rw [List.length_append] at this
      omega
    obtain ⟨⟨k₀, v₀⟩, E₂, rfl⟩ : ∃ e E, m₂ = e :: E :=
      List.exists_cons_of_ne_nil (by rintro rfl; simp at hlen₂; omega)
    refine ⟨l ++ (key, rid) :: m₁, k₀, v₀, E₂, by simp, ?_, by simpa using hlen₂, hfull,
      exec_insertEntryIntoLeafNode_split hn hlookup hroom hpQ hnext htake hdrop ?_ (by simp)⟩
    · simp only [List.length_append, List.length_cons] at hlen ⊢
      omega
    · rw [if_pos (by omega), insertIdx_append_length]
      exact ⟨rfl, rfl⟩
  · -- the new entry goes into the right half
    obtain ⟨m₁, m₂, rfl, hlen⟩ : ∃ m₁ m₂, l = m₁ ++ m₂ ∧ m₁.length = n.items.length / 2 := by
      refine ⟨l.take (n.items.length / 2), _, (List.take_append_drop _ _).symm, ?_⟩
      rw [List.length_take]
      omega
    have hcut : n.items = m₁ ++ (m₂ ++ r) := by rw [hitems, List.append_assoc]
    have htake : n.items.take (n.items.length / 2) = m₁ := by rw [← hlen, hcut, List.take_left]
    have hdrop : n.items.drop (n.items.length / 2) = m₂ ++ r := by
      rw [← hlen, hcut, List.drop_left]
    obtain ⟨⟨k₀, v₀⟩, E₂, hE₂⟩ : ∃ e E, m₂ ++ (key, rid) :: r = e :: E :=
      List.exists_cons_of_ne_nil (by simp)
    refine ⟨m₁, k₀, v₀, E₂, by rw [← hE₂]; simp, by omega, ?_, hfull,
      exec_insertEntryIntoLeafNode_split hn hlookup hroom hpQ hnext htake hdrop ?_ (by simp)⟩
    · have hlen' := congrArg List.length hE₂
      have hlen'' := congrArg List.length hcut
      simp only [List.length_append, List.length_cons] at hlen' hlen''
      omega
    · rw [if_neg (by simp), ← hE₂]
      refine ⟨rfl, ?_⟩
      rw [List.length_append, Nat.add_sub_cancel_left, insertIdx_append_length]

/-- The two outcomes of inserting into the leaf whose interval holds the key. -/
theorem insertEntryIntoLeafNode_ok (rid : RID) (fuel : ℕ) (ho : KeyOrder comparator InTree pos)
    (h : IndexInv InTree pos header s g none none) (hp : p ∈ g.nodes) (hleaf : g.level p = 0)
    (hkey : InTree key) (hlo : g.lo p ≤ pos key) (hhi : pos key < g.hi p)
    (hfuel : g.level header.rootPage < fuel) :
    ((∃ e ∈ (view s).entries p, pos e.1 = pos key) ∧
        exec flat (insertEntryIntoLeafNode comparator fuel p key rid) header s =
          some ((.recordDuplicateKey, header), s)) ∨
      (∀ e ∈ (view s).entries p, pos e.1 ≠ pos key) ∧
        ∃ header' s' g', exec flat (insertEntryIntoLeafNode comparator fuel p key rid) header s =
            some ((.success, header'), s') ∧ IndexInv InTree pos header' s' g' none none ∧
          (∀ e, Holds (view s') g' e ↔ e = (key, rid) ∨ Holds (view s) g e) ∧
          header'.leafMaxSize = header.leafMaxSize ∧
          header'.internalMaxSize = header.internalMaxSize ∧
          g'.level header'.rootPage ≤ g.level header.rootPage + 1 := by
  have hkind : (s.page p).kind = _ := h.tree.kind_eq p hp
  rw [if_pos hleaf] at hkind
  obtain ⟨n, hn⟩ := IndexPage.exists_leaf hkind
  have hentries : (view s).entries p = n.items := by simp [view, hn, IndexPage.entries]
  rw [hentries]
  rcases leaf_lookup ho hkey n (fun e he => (h.tree.entry p hp e (hentries ▸ he)).1)
    (hentries ▸ h.tree.sorted p hp) with
    ⟨l, r, hitems, hl, hr, hlookup⟩ | ⟨l, a, r, hitems, ha, -, -, hlookup⟩
  · refine Or.inr ⟨fun e he => ?_, ?_⟩
    · rw [hitems, List.mem_append] at he
      rcases he with he | he
      · exact (hl e he).ne
      · exact (hr e he).ne'
    · by_cases hroom : n.items.length < header.leafMaxSize
      · obtain ⟨hinv, hholds⟩ := h.leaf_room rid hp hleaf hn hitems hkey hlo hhi hl hr hroom
        refine ⟨header, _, g, ?_, hinv, hholds, rfl, rfl, Nat.le_succ _⟩
        have hins : n.insert l.length key rid = { n with items := l ++ (key, rid) :: r } := by
          rw [LeafIndexNode.insert, hitems, insertIdx_append_length]
        simp [insertEntryIntoLeafNode, hn, hlookup, maxSize, hroom, hins]
      · obtain ⟨E₁, k₀, v₀, E₂, hE, hE₁, hE₂, hfull, hexec⟩ :=
          exists_leaf_halves rid fuel h hp hleaf hn hitems hlookup hroom
        obtain ⟨g₁, hinv₁, hk₀, hpos, hnodes, hlevel, hhalf, hholds⟩ :=
          h.leaf_split hp hleaf hn hitems hkey hlo hhi hl hr hE hfull hE₁ hE₂
        have hlp := hlevel p hp
        have hlr := hlevel _ h.tree.root_mem
        obtain ⟨header', s', g', hrun, hinv, hkept⟩ := insertEntryIntoParent_ok ho fuel
          hinv₁ hk₀ hpos (by
            rw [hlp, levelMax, if_pos hleaf, maxSize]
            exact hhalf) (by omega)
        refine ⟨header', s', g', hexec.trans hrun, hinv, fun e => ?_, hkept.leaf_max,
          hkept.internal_max, ?_⟩
        · rw [hkept.holds, hholds]
        · have := hkept.height
          omega
  · refine Or.inl ⟨⟨a, by simp [hitems], ha⟩, ?_⟩
    simp [insertEntryIntoLeafNode, hn, hlookup]

omit [Inhabited K] in
/-- The first entry makes a tree of one leaf. -/
theorem createNewTree_ok (rid : RID) (h : EmptyInv header s) (ho : KeyOrder comparator InTree pos)
    (hkey : InTree key) :
    ∃ (header' : IndexFileHeader) (s' : FlatPool (IndexPage K)) (g' : Ghost B),
      exec flat (createNewTree key rid) header s = some ((.success, header'), s') ∧
      IndexInv InTree pos header' s' g' none none ∧ (∀ e, Holds (view s') g' e ↔ e = (key, rid)) ∧
      header'.leafMaxSize = header.leafMaxSize ∧
      header'.internalMaxSize = header.internalMaxSize ∧ g'.level header'.rootPage = 0 := by
  obtain ⟨-, hr₂⟩ := h.store.freePage
  have hr₁ : firstIndexPage ≠ (s.freePage : Int) := by rw [firstIndexPage]; omega
  have hbot : (⊥ : B) < ⊤ := (ho.bot_lt key hkey).trans (ho.lt_top key hkey)
  have hfirst := h.store.allocate.header_page
  obtain ⟨s', hs'⟩ : ∃ s', s' = (s.allocate.set s.freePage (.leaf ⟨bpInvalidPageNum,
      bpInvalidPageNum, bpInvalidPageNum, [(key, rid)]⟩)).set firstIndexPage
      (.header { header with rootPage := s.freePage }) := ⟨_, rfl⟩
  have hpage : s'.page s.freePage = .leaf ⟨bpInvalidPageNum, bpInvalidPageNum, bpInvalidPageNum,
      [(key, rid)]⟩ := by simp [hs', hr₁.symm]
  have hview : (view s').entries s.freePage = [(key, rid)] := by
    simp [view, hpage, IndexPage.entries]
  refine ⟨{ header with rootPage := s.freePage }, s', Ghost.single s.freePage, ?_,
    ⟨TreeInv.single hbot (by omega) ?_ ?_ ?_ ?_ ?_ ?_ ?_, ?_, ?_⟩, fun e => ?_, rfl, rfl, rfl⟩
  · simp [createNewTree, h.root, IndexPage.initEmpty, LeafIndexNode.insert, updateRootPageNum,
      hr₁, hfirst, hs']
  · simp [view, hpage, IndexPage.kind]
  · simp [view, hpage, IndexPage.parentPageNum]
  · simp [view, hpage, IndexPage.children]
  · simp [view, hpage, IndexPage.next]
  · simp [view, hpage, IndexPage.prev]
  · simp [hview]
  · simpa [hview] using ⟨hkey, ho.lt_top key hkey⟩
  · have hsize : (view s').size s.freePage = 1 := by
      simp [View.size, view, hpage, IndexPage.children, IndexPage.entries]
    have hleaf := h.leaf_max
    refine ⟨h.leaf_max, h.internal_max, ?_, fun x hx hxr => absurd hx hxr, ?_⟩
    · rintro x rfl
      rw [hsize]
      simp only [Ghost.single, levelMax, if_true, maxSize]
      omega
    · simp [hsize, Ghost.single]
  · obtain ⟨-, hbeyond, hres, hnodes⟩ := h.store.allocate
    have hb : s'.bitmap = s.allocate.bitmap := by rw [hs']; rfl
    refine ⟨by simp [hs'], fun i hi => ?_, ?_, fun x hx => ?_⟩
    · rw [hb]
      exact hbeyond i (by rwa [hs'] at hi)
    · simpa only [FlatPool.Allocated, hb] using hres
    · simpa only [FlatPool.Allocated, hb] using hnodes x (Or.inl hx)
  · constructor
    · rintro ⟨x, rfl, he⟩
      simpa [hview] using he
    · rintro rfl
      exact ⟨_, rfl, by simp [hview]⟩

/-- **`insert_entry`.** A key that is there is reported and nothing changes; another key is added,
and only it. -/
theorem insertEntry_ok (ho : KeyOrder comparator InTree pos) {height : ℕ} {C : Set (K × RID)}
    (h : Represents InTree pos header s height C) (hkey : InTree key) (hfuel : height ≤ fuel) :
    ((∃ e ∈ C, pos e.1 = pos key) ∧ exec flat (insertEntry comparator fuel key rid) header s =
        some ((.recordDuplicateKey, header), s)) ∨
      (∀ e ∈ C, pos e.1 ≠ pos key) ∧
        ∃ header' s', exec flat (insertEntry comparator fuel key rid) header s =
            some ((.success, header'), s') ∧
          Represents InTree pos header' s' (height + 1) (insert (key, rid) C) ∧
          header'.leafMaxSize = header.leafMaxSize ∧
          header'.internalMaxSize = header.internalMaxSize := by
  rcases h with ⟨hempty, rfl⟩ | ⟨g, hinv, hC, hheight⟩
  · refine Or.inr ⟨by simp, ?_⟩
    obtain ⟨header', s', g', hexec, hinv, hholds, hl, hi, hlevel⟩ :=
      createNewTree_ok rid hempty ho hkey
    refine ⟨header', s', ?_, Or.inr ⟨g', hinv, fun e => ?_, by omega⟩, hl, hi⟩
    · simp [insertEntry, isEmpty, hempty.root, hexec]
    · rw [hholds]
      simp
  · obtain ⟨q, hq, hleaf, ⟨hlo, hhi⟩, hfind⟩ := findLeaf_ok ho hinv.tree.toNodeInv fuel
      (by omega) hkey
    have hmem : (∃ e ∈ C, pos e.1 = pos key) ↔ ∃ e ∈ (view s).entries q, pos e.1 = pos key := by
      constructor
      · rintro ⟨e, he, hpos⟩
        exact ⟨e, hinv.tree.mem_entries hq hleaf ((hC e).mp he) (hpos ▸ hlo) (hpos ▸ hhi), hpos⟩
      · rintro ⟨e, he, hpos⟩
        exact ⟨e, (hC e).mpr ⟨q, hq, he⟩, hpos⟩
    rcases insertEntryIntoLeafNode_ok rid fuel ho hinv hq hleaf hkey hlo hhi (by omega) with
      ⟨hdup, hexec⟩ | ⟨hnew, header', s', g', hexec, hinv', hholds, hl, hi, hlevel⟩
    · refine Or.inl ⟨hmem.mpr hdup, ?_⟩
      simp [insertEntry, isEmpty, hinv.tree.root_ne_invalid, hfind, hexec]
    · refine Or.inr ⟨fun e he hpos => ?_, header', s', ?_,
        Or.inr ⟨g', hinv', fun e => ?_, by omega⟩, hl, hi⟩
      · obtain ⟨f, hf, hfpos⟩ := hmem.mp ⟨e, he, hpos⟩
        exact hnew f hf hfpos
      · simp [insertEntry, isEmpty, hinv.tree.root_ne_invalid, hfind, hexec]
      · rw [Set.mem_insert_iff, hC, hholds]

end operation

end Miniob.Storage.Index
