import Miniob.Storage.Index.Invariant

/-!
# Inserting keeps the invariant

`insert_entry_into_parent` is called with a node that has been split: its right half hangs in the
tree without a place in the parent (the *pending* part of the invariant).

* `insert_room`: the parent has room and takes the right half.
* `insert_split`: the parent is full, is split itself, and its right half is pending.
* `insert_newRoot`: the root has been split, and a new root gets the two halves.

`insertEntryIntoParent_ok` puts the three together by induction on the distance to the root.
-/

namespace Miniob.Storage.Index

open Miniob.Lib
open Miniob.Storage.BufferPool (FlatPool flat)

variable {K B : Type} [LinearOrder B] [BoundedOrder B] {comparator : K → K → Int}
  {InTree : K → Prop} {pos : K → B} {header : IndexFileHeader} {s s' : FlatPool (IndexPage K)}
  {g : Ghost B} {p q : Int} {key : K}

/-! ## The parent of a split node -/

/-- The place of the pending part in its parent: right after its left part, in the order of the
keys. -/
structure PendingSlot (InTree : K → Prop) (pos : K → B) (v : View K) (g : Ghost B) (p q : Int)
    (key : K) (l₁ : List (K × Int)) (kp : K) (l₂ : List (K × Int)) : Prop where
  /-- The parent is a node one level up. -/
  parent_mem : v.parent p ∈ g.nodes
  /-- The parent is a node one level up. -/
  parent_level : g.level p + 1 = g.level (v.parent p)
  /-- The items of the parent. -/
  children : v.children (v.parent p) = l₁ ++ (kp, p) :: l₂
  /-- The keys before the left part are below the new one. -/
  before : ∀ e ∈ l₁.tail, InTree e.1 ∧ pos e.1 < pos key
  /-- The key of the left part is below the new one. -/
  at_p : l₁ ≠ [] → InTree kp ∧ pos kp < pos key
  /-- The keys after the left part are above the new one. -/
  after : ∀ e ∈ l₂, InTree e.1 ∧ pos key < pos e.1

/-- Every pending part has its place. -/
theorem NodeInv.pendingSlot {v : View K} {root : Int}
    (h : NodeInv InTree pos v g root (some (p, q)))
    (hroot : p ≠ root) (hkq : pos key = g.lo q) :
    ∃ l₁ kp l₂, PendingSlot InTree pos v g p q key l₁ kp l₂ := by
  obtain ⟨hp, hq, hpq, hqroot, hlevel, hhi, horphan⟩ := h.pending_ok p q rfl
  obtain ⟨hP, hpP⟩ := h.up p hp hroot (by rintro a b hab; simp at hab; rw [← hab.2]; exact hpq)
  have hPl := (h.of_mem_children hP hpP).2.1
  obtain ⟨e, he, rfl⟩ := List.mem_map.mp hpP
  obtain ⟨l₁, l₂, hc⟩ := List.append_of_mem he
  have hcells := h.cells _ hP (by omega)
  have hpkey : g.lo e.2 < pos key := by rw [hkq, ← hhi]; exact h.lo_lt_hi _ hp
  have hkeyq : pos key < g.hi q := by rw [hkq]; exact h.lo_lt_hi _ hq
  have hcells' := hcells
  rw [hc, List.map_append, List.map_cons] at hcells'
  -- the first key of a node is the only one that is not a bound
  have hkey : ∀ f ∈ (l₁ ++ e :: l₂).tail, InTree f.1 ∧ pos f.1 = g.lo f.2 := fun f hf =>
    h.key_eq hP (hc ▸ hf)
  refine ⟨l₁, e.1, l₂, hP, hPl, hc, fun f hf => ?_, fun hne => ?_, fun f hf => ?_⟩
  · obtain ⟨hin, hpos⟩ := hkey f (by
      rcases l₁ with _ | ⟨a, t⟩
      · simp at hf
      · simpa using Or.inl hf)
    refine ⟨hin, ?_⟩
    have hmem : f.2 ∈ l₁.map Prod.snd := List.mem_map_of_mem (List.mem_of_mem_tail hf)
    have hbounds := cells_mem (cells_cut hcells').1 hmem
    rw [hpos]
    exact (hbounds.2.1.trans_le hbounds.2.2).trans hpkey
  · obtain ⟨hin, hpos⟩ := hkey e (by
      rcases l₁ with _ | ⟨a, t⟩
      · exact absurd rfl hne
      · simp)
    exact ⟨hin, hpos ▸ hpkey⟩
  · obtain ⟨hin, hpos⟩ := hkey f (by rcases l₁ with _ | ⟨a, t⟩ <;> simp [hf])
    have hafter := cells_after hcells' (List.mem_map_of_mem (f := Prod.snd) hf)
    rw [Ghost.parentHi_some, if_pos rfl] at hafter
    exact ⟨hin, hpos ▸ hkeyq.trans_le hafter⟩

/-- What is known of the parent `P` of a node `p` whose right part `q` is pending. -/
structure PendingParent (InTree : K → Prop) (pos : K → B) (s : FlatPool (IndexPage K)) (g : Ghost B)
    (p q : Int) (key : K) (P : Int) (N : InternalIndexNode K) (l₁ : List (K × Int)) (kp : K)
    (l₂ : List (K × Int)) : Prop extends PendingSlot InTree pos (view s) g p q key l₁ kp l₂ where
  /-- `p` knows its parent. -/
  parent_eq : (s.page p).parentPageNum = P
  /-- The parent is an internal node. -/
  page_eq : s.page P = .internal N
  /-- Its items. -/
  items_eq : N.items = l₁ ++ (kp, p) :: l₂
  /-- It is a node. -/
  mem : P ∈ g.nodes
  /-- It is one level up. -/
  level_eq : g.level p + 1 = g.level P
  /-- It is a page. -/
  ne_invalid : P ≠ bpInvalidPageNum
  /-- It is not the pending part. -/
  q_ne : q ≠ P
  /-- It is not its own child. -/
  self_not_mem : P ∉ N.items.map Prod.snd
  /-- It does not list the pending part. -/
  q_not_mem : q ∉ N.items.map Prod.snd
  /-- Its children are nodes. -/
  children_mem : ∀ c ∈ N.items.map Prod.snd, c ∈ g.nodes

/-- Every node with a pending right part other than the root has such a parent. -/
theorem IndexInv.pendingParent (h : IndexInv InTree pos header s g (some (p, q)) none)
    (hroot : p ≠ header.rootPage) (hkq : pos key = g.lo q) :
    ∃ P N l₁ kp l₂, PendingParent InTree pos s g p q key P N l₁ kp l₂ := by
  obtain ⟨-, hq, -, -, hlevel, -, horphan⟩ := h.tree.pending_ok p q rfl
  obtain ⟨l₁, kp, l₂, hslot⟩ := h.tree.pendingSlot hroot hkq
  have hPm : (s.page p).parentPageNum ∈ g.nodes := hslot.parent_mem
  have hPl : g.level p + 1 = g.level (s.page p).parentPageNum := hslot.parent_level
  have hkind : (s.page (s.page p).parentPageNum).kind = some .internal := by
    have hk : (s.page _).kind = _ := h.tree.kind_eq _ hPm
    rwa [if_neg (by omega)] at hk
  obtain ⟨N, hN⟩ := IndexPage.exists_internal hkind
  have hitems : (view s).children (s.page p).parentPageNum = N.items := by
    simp only [view, hN, IndexPage.children]
  refine ⟨_, N, l₁, kp, l₂, hslot, rfl, hN, hitems ▸ hslot.children, hPm, hPl, fun heq => ?_,
    fun heq => ?_, fun hmem => ?_, hitems ▸ horphan _ hPm, fun c hc => ?_⟩
  · have := h.tree.nonneg _ hPm
    rw [heq, bpInvalidPageNum] at this
    omega
  · rw [← heq] at hPl
    omega
  · have := (h.tree.of_mem_children hPm (hitems.symm ▸ hmem)).2.1
    omega
  · exact (h.tree.of_mem_children hPm (hitems.symm ▸ hc)).1

section parent

variable [Inhabited K] {fuel : ℕ} {P : Int} {N : InternalIndexNode K} {l₁ l₂ : List (K × Int)}
  {kp : K}

omit [BoundedOrder B] in
/-- The parent has room. -/
theorem exec_insertEntryIntoParent_room (hP : PendingParent InTree pos s g p q key P N l₁ kp l₂)
    (hroom : N.items.length < header.internalMaxSize) :
    exec flat (insertEntryIntoParent comparator (fuel + 1) p q key) header s =
      some ((.success, header), (s.set P (.internal (N.insert comparator key q))).set q
        ((s.page q).setParentPageNum P)) := by
  simp [insertEntryIntoParent, hP.parent_eq, hP.ne_invalid, hP.page_eq, hP.q_ne, maxSize, hroom]

omit [LinearOrder B] [BoundedOrder B] in
/-- There is no parent: a new root is made. -/
theorem exec_insertEntryIntoParent_root {h : IndexFileHeader}
    (hpar : (s.page p).parentPageNum = bpInvalidPageNum) (hp : p ≠ s.freePage)
    (hq : q ≠ s.freePage) (hpq : p ≠ q) (hfirst : s.page firstIndexPage = .header h)
    (hp₁ : p ≠ firstIndexPage) (hq₁ : q ≠ firstIndexPage)
    (hr₁ : (s.freePage : Int) ≠ firstIndexPage) :
    exec flat (insertEntryIntoParent comparator (fuel + 1) p q key) header s =
      some ((.success, { header with rootPage := s.freePage }),
        (((s.allocate.set s.freePage
            (.internal ⟨bpInvalidPageNum, [(default, p), (key, q)]⟩)).set p
          ((s.page p).setParentPageNum s.freePage)).set q
          ((s.page q).setParentPageNum s.freePage)).set firstIndexPage
          (.header { h with rootPage := s.freePage })) := by
  have hp' := s.allocate_page_of_ne hp
  have hq' := s.allocate_page_of_ne hq
  have h1' := s.allocate_page_of_ne hr₁.symm
  simp [insertEntryIntoParent, insertNewRoot, hpar, hp, hq, hpq.symm, hp', hq', h1', hp₁.symm,
    hq₁.symm, hr₁.symm, hfirst, IndexPage.initEmpty, InternalIndexNode.createNewRoot,
    updateRootPageNum]

omit [BoundedOrder B] in
/-- The parent is full: it is split and the new item entered into the half the first key of the
right half points to. -/
theorem exec_insertEntryIntoParent_split (hP : PendingParent InTree pos s g p q key P N l₁ kp l₂)
    (hQ : (s.freePage : Int) ∉ g.nodes) (hq : q ∈ g.nodes)
    (hfull : ¬ N.items.length < header.internalMaxSize) {D : List (K × Int)} {k₀ : K} {c₀ : Int}
    (hD : N.items.drop (N.items.length / 2) = (k₀, c₀) :: D) :
    exec flat (insertEntryIntoParent comparator (fuel + 1) p q key) header s =
      if comparator key k₀ > 0 then
        ((InternalIndexNode.insert comparator ⟨N.parent, (k₀, c₀) :: D⟩ key q).items[0]?.map
          Prod.fst).bind fun k =>
          exec flat (insertEntryIntoParent comparator fuel P s.freePage k) header
            (((splitInternal s P N).set s.freePage (.internal
              (InternalIndexNode.insert comparator ⟨N.parent, (k₀, c₀) :: D⟩ key q))).set q
              ((s.page q).setParentPageNum s.freePage))
      else
        exec flat (insertEntryIntoParent comparator fuel P s.freePage k₀) header
          (((splitInternal s P N).set P (.internal (InternalIndexNode.insert comparator
            { N with items := N.items.take (N.items.length / 2) } key q))).set q
            ((s.page q).setParentPageNum P)) := by
  have hPQ : P ≠ s.freePage := fun heq => hQ (heq ▸ hP.mem)
  have hqQ : q ≠ s.freePage := fun heq => hQ (heq ▸ hq)
  have hsplit : exec flat (split .internal P) header s = _ :=
    exec_split_internal hP.page_eq hPQ hP.self_not_mem fun hmem => hQ (hP.children_mem _ hmem)
  have hqD : q ∉ (N.items.drop (N.items.length / 2)).map Prod.snd := fun hmem =>
    hP.q_not_mem (List.map_subset _ (List.drop_subset _ _) hmem)
  have hq' : (splitInternal s P N).page q = s.page q := by
    rw [splitInternal_page, if_neg hP.q_ne, if_neg hqQ, if_neg hqD]
  have hQ' : (splitInternal s P N).page s.freePage = .internal ⟨N.parent, (k₀, c₀) :: D⟩ := by
    rw [splitInternal_page, if_neg hPQ.symm, if_pos rfl, hD]
  have hP' : (splitInternal s P N).page P =
      .internal { N with items := N.items.take (N.items.length / 2) } := by
    rw [splitInternal_page, if_pos rfl]
  simp [insertEntryIntoParent, hP.parent_eq, hP.ne_invalid, hP.page_eq, maxSize, hfull, hsplit, hq',
    hQ', hP', hqQ, hqQ.symm, hP.q_ne, hPQ.symm, IndexPage.keyAt?, Option.bind_map]

end parent

section invariant

variable {l₁ l₂ : List (K × Int)} {kp : K} {N : InternalIndexNode K} {P : Int}

omit [LinearOrder B] [BoundedOrder B] in
/-- The sizes after the pending part has been entered into a parent with room. -/
theorem SizeInv.attach {v : View K} (h : SizeInv header v g none)
    (hP : v.children P = l₁ ++ (kp, p) :: l₂) (hPl : g.level P ≠ 0)
    (hroom : v.size P < header.internalMaxSize) :
    SizeInv header (v.attach P p q l₁ kp key l₂) g none := by
  have hsize : ∀ x, (v.attach P p q l₁ kp key l₂).size x = v.size x + if x = P then 1 else 0 := by
    intro x
    simp only [View.size, View.attach]
    split
    next hx =>
      rw [hx, hP]
      simp only [List.length_append, List.length_cons]
      omega
    next => rfl
  refine ⟨h.leaf_max, h.internal_max, fun x hx => ?_, fun x hx hr => ?_, ?_⟩
  · rw [hsize]
    split
    next hxP =>
      subst hxP
      simp only [levelMax, if_neg hPl, maxSize]
      omega
    next => exact h.le_max x hx
  · rw [hsize]
    have := h.ge_half x hx hr
    omega
  · rw [hsize]
    have := h.ge_root
    omega

omit [LinearOrder B] [BoundedOrder B] in
/-- The sizes after a split into two parts that are at least half full. -/
theorem SizeInv.split {v w : View K} {m : B} (h : SizeInv header v g none)
    (hq : q ∉ g.nodes) (hsize : ∀ x ∈ g.nodes, x ≠ p → w.size x = v.size x)
    (hp₁ : levelMax header (g.level p) / 2 ≤ w.size p)
    (hp₂ : w.size p ≤ levelMax header (g.level p))
    (hq₁ : levelMax header (g.level p) / 2 ≤ w.size q)
    (hq₂ : w.size q ≤ levelMax header (g.level p)) (hroot : header.rootPage ∈ g.nodes) :
    SizeInv header w (g.split p q m) none := by
  have hne : ∀ {x}, x ∈ g.nodes → x ≠ q := fun hx hxq => hq (hxq ▸ hx)
  have hlevel : ∀ {x}, x ∈ g.nodes → (g.split p q m).level x = g.level x := fun hx => by
    simp only [Ghost.split, if_neg (hne hx)]
  have hlevelq : (g.split p q m).level q = g.level p := by simp only [Ghost.split, if_true]
  refine ⟨h.leaf_max, h.internal_max, ?_, ?_, ?_⟩
  · rintro x (rfl | hx)
    · rwa [hlevelq]
    · rw [hlevel hx]
      by_cases hxp : x = p
      · exact hxp ▸ hp₂
      · rw [hsize x hx hxp]
        exact h.le_max x hx
  · rintro x (rfl | hx) hr
    · rw [hlevelq]
      omega
    · rw [hlevel hx]
      by_cases hxp : x = p
      · rw [hxp]
        omega
      · rw [hsize x hx hxp]
        exact h.ge_half x hx hr
  · rw [hlevel hroot]
    by_cases hrp : header.rootPage = p
    · have h₁ := h.leaf_max
      have h₂ := h.internal_max
      rw [hrp] at *
      simp only [levelMax] at hp₁
      split at hp₁ <;> simp only [maxSize] at hp₁ <;> simp_all <;> omega
    · rw [hsize _ hroot hrp]
      exact h.ge_root

/-- The parent has room: the invariant holds again. -/
theorem IndexInv.insert_room (ho : KeyOrder comparator InTree pos)
    (h : IndexInv InTree pos header s g (some (p, q)) none) (hroot : p ≠ header.rootPage)
    (hkey : InTree key) (hkq : pos key = g.lo q)
    (hP : PendingParent InTree pos s g p q key P N l₁ kp l₂)
    (hroom : N.items.length < header.internalMaxSize) :
    IndexInv InTree pos header ((s.set P (.internal (N.insert comparator key q))).set q
      ((s.page q).setParentPageNum P)) g none none ∧
    ∀ e, Holds (view ((s.set P (.internal (N.insert comparator key q))).set q
      ((s.page q).setParentPageNum P))) g e ↔ Holds (view s) g e := by
  obtain ⟨-, hq, -, -, -, -, -⟩ := h.tree.pending_ok p q rfl
  have hins : N.insert comparator key q = ⟨N.parent, l₁ ++ (kp, p) :: (key, q) :: l₂⟩ := by
    rw [← internal_insert ho hkey N.parent p q hP.before hP.at_p hP.after, ← hP.items_eq]
  rw [hins]
  have hagree : (view ((s.set P (.internal ⟨N.parent, l₁ ++ (kp, p) :: (key, q) :: l₂⟩)).set q
      ((s.page q).setParentPageNum P))).AgreesOn g.nodes
      ((view s).attach P p q l₁ kp key l₂) := by
    intro x hx
    by_cases hxq : x = q
    · subst hxq
      simp [view, View.attach, hP.q_ne, IndexPage.parent_setParent _ _ (h.kind_ne_none hx)]
    · by_cases hxP : x = P
      · subst hxP
        simp [view, View.attach, hxq, hP.page_eq, IndexPage.children, IndexPage.entries,
          IndexPage.kind, IndexPage.parentPageNum]
      · simp [view, View.attach, hxq, hxP]
  have htree : TreeInv InTree pos ((view s).attach P p q l₁ kp key l₂) g header.rootPage none :=
    hP.parent_eq ▸ h.tree.attach hroot hP.children hkey hkq
  have hPl := hP.level_eq
  refine ⟨⟨htree.congr hagree, ?_, (h.store.set hP.mem _).set hq _⟩, fun e => ?_⟩
  · refine SizeInv.congr (h.sizes.attach (hP.parent_eq ▸ hP.children) (by omega) ?_)
      h.tree.root_mem hagree
    simpa [View.size, view, hP.page_eq, IndexPage.children, IndexPage.entries] using hroom
  · exact holds_congr (fun x hx => (hagree x hx).2.2.2.1) e

/-- The state after a full parent has been split: the parent and its right half are pending. -/
structure SplitUp (InTree : K → Prop) (pos : K → B) (header : IndexFileHeader)
    (s : FlatPool (IndexPage K)) (g : Ghost B) (P Q : Int) (k₀ : K) (s' : FlatPool (IndexPage K))
    (g' : Ghost B) : Prop where
  /-- The right half is pending. -/
  inv : IndexInv InTree pos header s' g' (some (P, Q)) none
  /-- Its first key may occur in the tree. -/
  inTree : InTree k₀
  /-- Its first key is its lower bound. -/
  pos_eq : pos k₀ = g'.lo Q
  /-- It is the only new node. -/
  nodes_eq : g'.nodes = insert Q g.nodes
  /-- The other nodes stay on their levels. -/
  level_eq : ∀ x ∈ g.nodes, g'.level x = g.level x
  /-- The left half is half full. -/
  half : header.internalMaxSize / 2 ≤ (view s').size P
  /-- The entries are the same. -/
  holds : ∀ e, Holds (view s') g' e ↔ Holds (view s) g e

/-- The parent was full: its two halves, with the new item in one of them, are pending in turn.
`s'` is any file whose pages are as described. -/
theorem IndexInv.insert_split {C₁ D : List (K × Int)} {k₀ : K} {c₀ Q : Int}
    (h : IndexInv InTree pos header s g (some (p, q)) none) (hroot : p ≠ header.rootPage)
    (hkey : InTree key) (hkq : pos key = g.lo q)
    (hP : PendingParent InTree pos s g p q key P N l₁ kp l₂)
    (hfull : N.items.length = header.internalMaxSize)
    (hC : C₁ ++ (k₀, c₀) :: D = l₁ ++ (kp, p) :: (key, q) :: l₂)
    (hC₁ : header.internalMaxSize / 2 ≤ C₁.length) (hD : header.internalMaxSize / 2 ≤ D.length + 1)
    (hQ : Q ∉ g.nodes) (hQ₀ : 0 ≤ Q) (hstore : StoreInv header s' (insert Q g.nodes))
    (hpages : ∀ x ∈ insert Q g.nodes, s'.page x =
      if x = q then (s.page q).setParentPageNum
        (if q ∈ ((k₀, c₀) :: D).map Prod.snd then Q else P)
      else if x = P then .internal ⟨N.parent, C₁⟩
      else if x = Q then .internal ⟨N.parent, (k₀, c₀) :: D⟩
      else if x ∈ ((k₀, c₀) :: D).map Prod.snd then (s.page x).setParentPageNum Q
      else s.page x) :
    ∃ g', SplitUp InTree pos header s g P Q k₀ s' g' := by
  obtain ⟨-, hq, -, -, -, -, -⟩ := h.tree.pending_ok p q rfl
  have htree : TreeInv InTree pos ((view s).attach P p q l₁ kp key l₂) g header.rootPage none :=
    hP.parent_eq ▸ h.tree.attach hroot hP.children hkey hkq
  have hPm := hP.mem
  have hPl := hP.level_eq
  have hne : ∀ {x}, x ∈ g.nodes → x ≠ Q := fun hx hxQ => hQ (hxQ ▸ hx)
  have hint := h.sizes.internal_max
  -- the parent with its new item is cut at the child `c₀`
  have hchildren : ((view s).attach P p q l₁ kp key l₂).children P = C₁ ++ (k₀, c₀) :: D := by
    simp only [View.attach, if_true, hC]
  have hC₁ne : C₁ ≠ [] := by rintro rfl; simp at hC₁; omega
  have hcells := htree.cells P hPm (by omega)
  rw [hchildren, List.map_append, List.map_cons] at hcells
  obtain ⟨hc₁, hlt, hc₂⟩ := cells_cut hcells
  have hpm : g.lo P < g.lo c₀ := by
    obtain ⟨a, C', rfl⟩ := List.exists_cons_of_ne_nil hC₁ne
    obtain ⟨ha, haa, haa'⟩ := cells_mem hc₁ (c := a.2) (by simp)
    exact ha.trans_lt (haa.trans_le haa')
  have hmp : g.lo c₀ < g.hi P := hlt.trans_le (cells_le hc₂)
  have hk₀ : InTree k₀ ∧ pos k₀ = g.lo c₀ := by
    refine htree.key_eq hPm (e := (k₀, c₀)) ?_
    rw [hchildren, List.tail_append_of_ne_nil hC₁ne]
    simp
  have hentries : ((view s).attach P p q l₁ kp key l₂).entries P = [] ++ [] :=
    h.tree.internal_entries P hPm (by omega)
  have hsplit := htree.split hPm hQ hQ₀ hpm hmp hchildren hentries
    (fun _ => ⟨hc₁, rfl, hlt, hc₂⟩) (by simp) (by simp)
  have hagree : (view s').AgreesOn (insert Q g.nodes)
      (((view s).attach P p q l₁ kp key l₂).split P Q C₁ ((k₀, c₀) :: D) [] []) := by
    have hkP : (s.page P).kind ≠ some .leaf := by simp [hP.page_eq, IndexPage.kind]
    rintro x (rfl | hx)
    · have hxq : x ≠ q := (hne hq).symm
      have hxP : x ≠ P := (hne hPm).symm
      simp [view, View.attach, View.split, hpages, hxq, hxP, hP.q_ne.symm, hP.page_eq,
        IndexPage.kind, IndexPage.parentPageNum, IndexPage.children, IndexPage.entries]
    · have hxQ := hne hx
      have hpx := hpages x (Set.mem_insert_of_mem _ hx)
      by_cases hxq : x = q
      · subst hxq
        simp [view, View.attach, View.split, hpx, hxQ, hP.q_ne, hkP,
          IndexPage.parent_setParent _ _ (h.kind_ne_none hx)]
      · by_cases hxP : x = P
        · subst hxP
          have hxD : x ∉ ((k₀, c₀) :: D).map Prod.snd := fun hmem => by
            have hl := (htree.of_mem_children hx (c := x) (by
              rw [hchildren, List.map_append]; exact List.mem_append_right _ hmem)).2.1
            omega
          rw [List.map_cons] at hxD
          simp [view, View.attach, View.split, hpx, hxQ, hxq, hP.page_eq, hxD, IndexPage.kind,
            IndexPage.parentPageNum, IndexPage.children, IndexPage.entries]
        · by_cases hxD : x ∈ ((k₀, c₀) :: D).map Prod.snd
          · simp only [view, View.attach, View.split, hpx, hxQ, hxq, hxP, hkP, hxD, if_true,
              if_false, IndexPage.parent_setParent _ _ (h.kind_ne_none hx),
              IndexPage.kind_setParent, IndexPage.children_setParent, IndexPage.entries_setParent,
              IndexPage.next_setParent, IndexPage.prev_setParent, implies_true, and_self]
          · simp only [view, View.attach, View.split, hpx, hxQ, hxq, hxP, hkP, hxD, if_false,
              implies_true, and_self]
  have hsize : ∀ x ∈ insert Q g.nodes, (view s').size x =
      (((view s).attach P p q l₁ kp key l₂).split P Q C₁ ((k₀, c₀) :: D) [] []).size x :=
    fun x hx => by simp only [View.size, (hagree x hx).2.2.1, (hagree x hx).2.2.2.1]
  have hP' : (view s').size P = C₁.length := by
    rw [hsize P (Set.mem_insert_of_mem _ hPm)]
    simp [View.size, View.split, hne hPm]
  have hQ' : (view s').size Q = D.length + 1 := by
    rw [hsize Q (Set.mem_insert _ _)]
    simp [View.size, View.split]
  refine ⟨g.split P Q (g.lo c₀), ⟨hsplit.congr hagree, ?_, hstore⟩, hk₀.1, ?_, rfl, ?_, by omega,
    fun e => ?_⟩
  · have hmax : levelMax header (g.level P) = header.internalMaxSize := by
      simp only [levelMax, if_neg (show g.level P ≠ 0 by omega), maxSize]
    have hlen := congrArg List.length hC
    simp only [List.length_append, List.length_cons] at hlen
    have hfull' : l₁.length + (l₂.length + 1) = header.internalMaxSize := by
      rw [← hfull, hP.items_eq]
      simp
    refine h.sizes.split hQ (fun x hx hxP => ?_) (by omega) (by omega) (by omega) (by omega)
      h.tree.root_mem
    rw [hsize x (Set.mem_insert_of_mem _ hx)]
    simp [View.size, View.split, View.attach, hne hx, hxP]
  · simp only [Ghost.split, if_true, hk₀.2]
  · intro x hx
    simp only [Ghost.split, if_neg (hne hx)]
  · refine holds_insert (fun x hx => ?_) ?_ rfl e
    · rw [(hagree x (Set.mem_insert_of_mem _ hx)).2.2.2.1]
      simp only [View.split, View.attach, if_neg (hne hx)]
      split
      next hxP => rw [hxP, h.tree.internal_entries P hPm (by omega)]
      next => rfl
    · rw [(hagree Q (Set.mem_insert _ _)).2.2.2.1]
      simp [View.split]

/-- The two halves of the old root under the new one. -/
theorem IndexInv.insert_newRoot [Inhabited K]
    (h : IndexInv InTree pos header s g (some (p, q)) none) (hroot : header.rootPage = p)
    (hkey : InTree key) (hkq : pos key = g.lo q)
    (hhalf : levelMax header (g.level p) / 2 ≤ (view s).size p) :
    IndexInv InTree pos { header with rootPage := s.freePage }
      ((((s.allocate.set s.freePage (.internal ⟨bpInvalidPageNum, [(default, p), (key, q)]⟩)).set p
          ((s.page p).setParentPageNum s.freePage)).set q
          ((s.page q).setParentPageNum s.freePage)).set firstIndexPage
          (.header { header with rootPage := s.freePage })) (g.newRoot p s.freePage) none none ∧
    ∀ e, Holds (view ((((s.allocate.set s.freePage
      (.internal ⟨bpInvalidPageNum, [(default, p), (key, q)]⟩)).set p
        ((s.page p).setParentPageNum s.freePage)).set q
        ((s.page q).setParentPageNum s.freePage)).set firstIndexPage
        (.header { header with rootPage := s.freePage }))) (g.newRoot p s.freePage) e ↔
      Holds (view s) g e := by
  obtain ⟨hp, hq, hpq, -, hlevel, hhi, -⟩ := h.tree.pending_ok p q rfl
  obtain ⟨hr, hr₂⟩ := h.store.freePage
  have hr₁ : (s.freePage : Int) ≠ firstIndexPage := by rw [firstIndexPage]; omega
  have hne : ∀ {x}, x ∈ g.nodes → x ≠ s.freePage := fun hx hxr => hr (hxr ▸ hx)
  have htree : TreeInv InTree pos (view s) g p (some (p, q)) := hroot ▸ h.tree
  have hnew : TreeInv InTree pos ((view s).newRoot p q s.freePage default key)
      (g.newRoot p s.freePage) s.freePage none := htree.newRoot hr (by omega) hkey hkq
  generalize hs' : ((((s.allocate.set s.freePage
      (.internal ⟨bpInvalidPageNum, [(default, p), (key, q)]⟩)).set p
      ((s.page p).setParentPageNum s.freePage)).set q
      ((s.page q).setParentPageNum s.freePage)).set firstIndexPage
      (.header { header with rootPage := s.freePage })) = s'
  have hpages : ∀ x, x ≠ firstIndexPage → s'.page x =
      if x = q then (s.page q).setParentPageNum s.freePage
      else if x = p then (s.page p).setParentPageNum s.freePage
      else if x = s.freePage then .internal ⟨bpInvalidPageNum, [(default, p), (key, q)]⟩
      else s.page x := by
    intro x hx
    by_cases hxr : x = s.freePage
    · simp [← hs', hxr, hr₁]
    · simp [← hs', hx, hxr, s.allocate_page_of_ne hxr]
  have hagree : (view s').AgreesOn (insert (s.freePage : Int) g.nodes)
      ((view s).newRoot p q s.freePage default key) := by
    rintro x (rfl | hx)
    · simp [view, View.newRoot, hpages _ hr₁, (hne hp).symm, (hne hq).symm, IndexPage.kind,
        IndexPage.parentPageNum, IndexPage.children, IndexPage.entries]
    · have hxr := hne hx
      have hx₁ := hpages x (h.store.ne_first hx)
      by_cases hxq : x = q
      · subst hxq
        simp [view, View.newRoot, hx₁, hxr, IndexPage.parent_setParent _ _ (h.kind_ne_none hx)]
      · by_cases hxp : x = p
        · subst hxp
          simp [view, View.newRoot, hx₁, hxr, hxq,
            IndexPage.parent_setParent _ _ (h.kind_ne_none hx)]
        · simp [view, View.newRoot, hx₁, hxr, hxq, hxp]
  have hsize : ∀ x ∈ g.nodes, (view s').size x = (view s).size x := fun x hx => by
    have hxa := hagree x (Set.mem_insert_of_mem _ hx)
    simp only [View.size, hxa.2.2.1, hxa.2.2.2.1]
    simp [View.newRoot, hne hx]
  have hsizer : (view s').size s.freePage = 2 := by
    have hra := hagree s.freePage (Set.mem_insert _ _)
    simp [View.size, hra.2.2.1, hra.2.2.2.1, View.newRoot]
  have hlevelr : (g.newRoot p s.freePage).level s.freePage = g.level p + 1 := by
    simp [Ghost.newRoot]
  have hlevelx : ∀ x ∈ g.nodes, (g.newRoot p s.freePage).level x = g.level x := fun x hx => by
    simp [Ghost.newRoot, hne hx]
  refine ⟨⟨hnew.congr hagree, ⟨h.sizes.leaf_max, h.sizes.internal_max, ?_, ?_, ?_⟩, ?_⟩,
    holds_insert (fun x hx => ?_) ?_ rfl⟩
  · rintro x (rfl | hx)
    · have := h.sizes.internal_max
      rw [hsizer, hlevelr]
      simp only [levelMax, Nat.add_eq_zero_iff, one_ne_zero, and_false, if_false, maxSize]
      omega
    · rw [hsize x hx, hlevelx x hx]
      exact h.sizes.le_max x hx
  · rintro x (rfl | hx) hxr
    · exact absurd rfl hxr
    · rw [hsize x hx, hlevelx x hx]
      by_cases hxp : x = p
      · subst hxp
        exact hhalf
      · exact h.sizes.ge_half x hx (hroot ▸ hxp)
  · simp [hsizer, hlevelr]
  · obtain ⟨hfirst, hbeyond, hres, hnodes⟩ := h.store.allocate
    have hb : s'.bitmap = s.allocate.bitmap := by rw [← hs']; rfl
    have hc : s'.pageCount = s.allocate.pageCount := by rw [← hs']; rfl
    refine ⟨by simp [← hs'], fun i hi => ?_, ?_, fun x hx => ?_⟩
    · rw [hb]
      exact hbeyond i (hc ▸ hi)
    · simpa only [FlatPool.Allocated, hb] using hres
    · simpa only [FlatPool.Allocated, hb] using hnodes x hx
  · rw [(hagree x (Set.mem_insert_of_mem _ hx)).2.2.2.1]
    simp [View.newRoot, hne hx]
  · rw [(hagree _ (Set.mem_insert _ _)).2.2.2.1]
    simp [View.newRoot]

end invariant

/-! ## Going up -/

section up

variable [Inhabited K]

/-- What an operation on the pages above the leaves leaves alone: the entries, the capacities, and
the height up to one level. -/
structure Kept (header : IndexFileHeader) (s : FlatPool (IndexPage K)) (g : Ghost B)
    (header' : IndexFileHeader) (s' : FlatPool (IndexPage K)) (g' : Ghost B) : Prop where
  /-- The entries are the same. -/
  holds : ∀ e, Holds (view s') g' e ↔ Holds (view s) g e
  /-- The capacities are the same. -/
  leaf_max : header'.leafMaxSize = header.leafMaxSize
  /-- The capacities are the same. -/
  internal_max : header'.internalMaxSize = header.internalMaxSize
  /-- The tree has grown by one level at most. -/
  height : g'.level header'.rootPage ≤ g.level header.rootPage + 1

/-- A full parent is split and the new item entered in its left or right half. -/
theorem exists_splitUp (ho : KeyOrder comparator InTree pos) {P : Int} {N : InternalIndexNode K}
    {l₁ l₂ : List (K × Int)} {kp : K} {fuel : ℕ}
    (h : IndexInv InTree pos header s g (some (p, q)) none) (hroot : p ≠ header.rootPage)
    (hkey : InTree key) (hkq : pos key = g.lo q)
    (hP : PendingParent InTree pos s g p q key P N l₁ kp l₂)
    (hfull : ¬ N.items.length < header.internalMaxSize) :
    ∃ s' g' k₀, exec flat (insertEntryIntoParent comparator (fuel + 1) p q key) header s =
        exec flat (insertEntryIntoParent comparator fuel P s.freePage k₀) header s' ∧
      SplitUp InTree pos header s g P s.freePage k₀ s' g' := by
  obtain ⟨-, hq, -, -, -, -, -⟩ := h.tree.pending_ok p q rfl
  obtain ⟨hQ, hQ₂⟩ := h.store.freePage
  have hPl := hP.level_eq
  have hmax : N.items.length = header.internalMaxSize := by
    have hle := h.sizes.le_max P hP.mem
    have hsize : (view s).size P = N.items.length := by
      simp [View.size, view, hP.page_eq, IndexPage.children, IndexPage.entries]
    rw [hsize, levelMax, if_neg (by omega), maxSize] at hle
    omega
  have hint := h.sizes.internal_max
  have hitems := hP.items_eq
  have hPQ : P ≠ s.freePage := fun heq => hQ (heq ▸ hP.mem)
  have hqQ : q ≠ s.freePage := fun heq => hQ (heq ▸ hq)
  have hQ₁ : firstIndexPage ≠ (s.freePage : Int) := by rw [firstIndexPage]; omega
  have hfirst : (splitInternal s P N).page firstIndexPage = s.allocate.page firstIndexPage := by
    rw [splitInternal_page, if_neg (h.store.ne_first hP.mem).symm, if_neg hQ₁, if_neg,
      FlatPool.allocate_page_of_ne hQ₁]
    intro hmem
    have hmem' := List.map_subset Prod.snd (List.drop_subset _ _) hmem
    exact h.store.ne_first (hP.children_mem _ hmem') rfl
  by_cases hcase : l₁.length < header.internalMaxSize / 2
  · -- the left part `p`, and with it the new item, stays in the left half
    obtain ⟨m₁, m₂, rfl, hlen⟩ : ∃ m₁ m₂, l₂ = m₁ ++ m₂ ∧
        (l₁ ++ (kp, p) :: m₁).length = N.items.length / 2 := by
      refine ⟨l₂.take (header.internalMaxSize / 2 - l₁.length - 1), _,
        (List.take_append_drop _ _).symm, ?_⟩
      rw [hmax]
      rw [hitems] at hmax
      simp only [List.length_append, List.length_cons, List.length_take] at hmax ⊢
      omega
    have hcut : N.items = (l₁ ++ (kp, p) :: m₁) ++ m₂ := by rw [hitems]; simp
    have htake : N.items.take (N.items.length / 2) = l₁ ++ (kp, p) :: m₁ := by
      rw [← hlen, hcut, List.take_left]
    have hdrop : N.items.drop (N.items.length / 2) = m₂ := by
      rw [← hlen, hcut, List.drop_left]
    have hlen₂ : header.internalMaxSize / 2 ≤ m₂.length := by
      have := congrArg List.length hcut
      rw [List.length_append] at this
      omega
    obtain ⟨⟨k₀, c₀⟩, D, rfl⟩ : ∃ e D, m₂ = e :: D :=
      List.exists_cons_of_ne_nil (by rintro rfl; simp at hlen₂; omega)
    have hk₀ := hP.after (k₀, c₀) (by simp)
    have hcmp : ¬ comparator key k₀ > 0 := not_lt.mpr (ho.neg key k₀ hkey hk₀.1 hk₀.2).le
    have hL : InternalIndexNode.insert comparator
        { N with items := N.items.take (N.items.length / 2) } key q =
        ⟨N.parent, l₁ ++ (kp, p) :: (key, q) :: m₁⟩ := by
      rw [htake]
      exact internal_insert ho hkey N.parent p q hP.before hP.at_p
        fun e he => hP.after e (List.mem_append_left _ he)
    have hqD : q ∉ ((k₀, c₀) :: D).map Prod.snd := fun hmem => hP.q_not_mem (by
      rw [hcut, List.map_append]
      exact List.mem_append_right _ hmem)
    obtain ⟨g', hg'⟩ : ∃ g', SplitUp InTree pos header s g P s.freePage k₀
        (((splitInternal s P N).set P (.internal ⟨N.parent, l₁ ++ (kp, p) :: (key, q) :: m₁⟩)).set q
          ((s.page q).setParentPageNum P)) g' := by
      have hcut' : (l₁ ++ (kp, p) :: (key, q) :: m₁) ++ (k₀, c₀) :: D =
          l₁ ++ (kp, p) :: (key, q) :: (m₁ ++ (k₀, c₀) :: D) := by simp
      refine h.insert_split hroot hkey hkq hP hmax hcut' ?_ (by simpa using hlen₂) hQ (by omega)
        (h.store.allocate.congr rfl rfl ?_) fun x _ => ?_
      · simp only [List.length_append, List.length_cons] at hlen ⊢
        omega
      · simp [(h.store.ne_first hq).symm, (h.store.ne_first hP.mem).symm, hfirst]
      · simp only [FlatPool.set_page, splitInternal_page, hdrop, if_neg hqD]
        by_cases hxP : x = P <;> simp [hxP]
    refine ⟨_, g', k₀, ?_, hg'⟩
    rw [exec_insertEntryIntoParent_split hP hQ hq hfull hdrop, if_neg hcmp, hL]
  · -- the left part `p`, and with it the new item, moves to the right half
    obtain ⟨m₁, m₂, rfl, hlen⟩ : ∃ m₁ m₂, l₁ = m₁ ++ m₂ ∧ m₁.length = N.items.length / 2 := by
      refine ⟨l₁.take (header.internalMaxSize / 2), _, (List.take_append_drop _ _).symm, ?_⟩
      rw [hmax, List.length_take]
      omega
    have hcut : N.items = m₁ ++ (m₂ ++ (kp, p) :: l₂) := by rw [hitems]; simp
    have htake : N.items.take (N.items.length / 2) = m₁ := by rw [← hlen, hcut, List.take_left]
    have hdrop : N.items.drop (N.items.length / 2) = m₂ ++ (kp, p) :: l₂ := by
      rw [← hlen, hcut, List.drop_left]
    have hm₁ : m₁ ≠ [] := by rintro rfl; simp at hlen; omega
    have htail : ∀ e ∈ m₂, InTree e.1 ∧ pos e.1 < pos key := fun e he =>
      hP.before e (by rw [List.tail_append_of_ne_nil hm₁]; exact List.mem_append_right _ he)
    have hkp := hP.at_p (by simp [hm₁])
    have hR : InternalIndexNode.insert comparator ⟨N.parent, m₂ ++ (kp, p) :: l₂⟩ key q =
        ⟨N.parent, m₂ ++ (kp, p) :: (key, q) :: l₂⟩ :=
      internal_insert ho hkey N.parent p q (fun e he => htail e (List.mem_of_mem_tail he))
        (fun _ => hkp) hP.after
    -- the first item of the right half, before and after the insertion
    obtain ⟨k₀, c₀, D, D', hD, hD', hk₀⟩ : ∃ k₀ c₀ D D', m₂ ++ (kp, p) :: l₂ = (k₀, c₀) :: D ∧
        m₂ ++ (kp, p) :: (key, q) :: l₂ = (k₀, c₀) :: D' ∧ InTree k₀ ∧ pos k₀ < pos key := by
      rcases m₂ with _ | ⟨⟨k₀, c₀⟩, t⟩
      · exact ⟨kp, p, _, _, rfl, rfl, hkp⟩
      · exact ⟨k₀, c₀, _, _, rfl, rfl, htail (k₀, c₀) (by simp)⟩
    have hcmp : comparator key k₀ > 0 := ho.pos key k₀ hkey hk₀.1 hk₀.2
    have hq' : q ∈ ((k₀, c₀) :: D').map Prod.snd := by rw [← hD']; simp
    have hmem : ∀ x, x ≠ q → (x ∈ ((k₀, c₀) :: D').map Prod.snd ↔
        x ∈ ((k₀, c₀) :: D).map Prod.snd) := fun x hx => by
      rw [← hD', ← hD]
      simp [hx]
    obtain ⟨g', hg'⟩ : ∃ g', SplitUp InTree pos header s g P s.freePage k₀
        (((splitInternal s P N).set s.freePage (.internal ⟨N.parent, (k₀, c₀) :: D'⟩)).set q
          ((s.page q).setParentPageNum s.freePage)) g' := by
      have hcut' : m₁ ++ (k₀, c₀) :: D' = (m₁ ++ m₂) ++ (kp, p) :: (key, q) :: l₂ := by
        rw [← hD']
        simp
      refine h.insert_split hroot hkey hkq hP hmax hcut' (by omega) ?_ hQ (by omega)
        (h.store.allocate.congr rfl rfl ?_) fun x _ => ?_
      · have hlen' := congrArg List.length hcut'
        have hlen'' := congrArg List.length hcut
        simp only [List.length_append, List.length_cons] at hlen' hlen''
        omega
      · simp [(h.store.ne_first hq).symm, hQ₁, hfirst]
      · simp only [FlatPool.set_page, splitInternal_page, hdrop, htake, if_pos hq', hD]
        by_cases hxq : x = q
        · simp [hxq]
        · simp only [hxq, if_false, hmem x hxq]
          by_cases hxP : x = P
          · simp [hxP, hPQ]
          · simp only [hxP, if_false]
            split <;> rfl
    refine ⟨_, g', k₀, ?_, hg'⟩
    rw [exec_insertEntryIntoParent_split hP hQ hq hfull (hdrop.trans hD), if_pos hcmp, ← hD, hR, hD']
    simp

/-- **Going up.** Entering the pending part into the tree keeps the invariant and the entries.
By induction on the distance to the root. -/
theorem insertEntryIntoParent_ok (ho : KeyOrder comparator InTree pos) (fuel : ℕ)
    (h : IndexInv InTree pos header s g (some (p, q)) none) (hkey : InTree key)
    (hkq : pos key = g.lo q) (hhalf : levelMax header (g.level p) / 2 ≤ (view s).size p)
    (hfuel : g.level header.rootPage < fuel + g.level p) :
    ∃ header' s' g', exec flat (insertEntryIntoParent comparator fuel p q key) header s =
        some ((.success, header'), s') ∧ IndexInv InTree pos header' s' g' none none ∧
      Kept header s g header' s' g' := by
  induction fuel generalizing s g p q key with
  | zero =>
      have := h.tree.level_le p (h.tree.pending_ok p q rfl).1
      omega
  | succ fuel ih =>
      obtain ⟨hp, hq, hpq, -⟩ := h.tree.pending_ok p q rfl
      obtain ⟨hr, hr₂⟩ := h.store.freePage
      have hne : ∀ {x}, x ∈ g.nodes → x ≠ s.freePage := fun hx hxr => hr (hxr ▸ hx)
      by_cases hroot : header.rootPage = p
      · -- a new root
        have hpar : (s.page p).parentPageNum = bpInvalidPageNum := hroot ▸ h.tree.root_parent
        obtain ⟨hinv, hholds⟩ := h.insert_newRoot hroot hkey hkq hhalf
        refine ⟨_, _, _, exec_insertEntryIntoParent_root hpar (hne hp) (hne hq) hpq
          h.store.header_page (h.store.ne_first hp) (h.store.ne_first hq)
          (by rw [firstIndexPage]; omega), hinv, hholds, rfl, rfl, ?_⟩
        simp [Ghost.newRoot, hroot]
      · obtain ⟨P, N, l₁, kp, l₂, hP⟩ := h.pendingParent (Ne.symm hroot) hkq
        by_cases hroom : N.items.length < header.internalMaxSize
        · obtain ⟨hinv, hholds⟩ := h.insert_room ho (Ne.symm hroot) hkey hkq hP hroom
          exact ⟨_, _, g, exec_insertEntryIntoParent_room hP hroom, hinv, hholds, rfl, rfl,
            Nat.le_succ _⟩
        · obtain ⟨s₁, g₁, k₀, hexec, hup⟩ := exists_splitUp ho h (Ne.symm hroot) hkey hkq hP hroom
          have hPl := hP.level_eq
          have hlP := hup.level_eq P hP.mem
          have hlr := hup.level_eq _ h.tree.root_mem
          obtain ⟨header', s', g', hrun, hinv, hkept⟩ := ih hup.inv hup.inTree hup.pos_eq (by
            rw [hlP, levelMax, if_neg (by omega), maxSize]
            exact hup.half) (by omega)
          refine ⟨header', s', g', hexec.trans hrun, hinv, fun e => ?_, hkept.leaf_max,
            hkept.internal_max, ?_⟩
          · rw [hkept.holds, hup.holds]
          · have := hkept.height
            omega

end up

end Miniob.Storage.Index
