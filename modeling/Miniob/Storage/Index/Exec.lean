import Miniob.Storage.Index.BplusTree

/-!
# Running the tree handler on the flat pool

What the steps of a handler program do when no buffer pool call fails: one lemma for each pool call,
each access to a page and each step that the operations share (`split`, `update_root_page_num`).
The lemmas are in the simp set, so that a proof runs a program by `simp` with the pages it reads.
-/

namespace Miniob.Storage.Index

open Miniob.Lib
open Miniob.Storage.BufferPool (PoolCall PoolProg FlatPool flat)

variable {K α β σ : Type}

/-! ## Sequencing -/

section sequencing

/-- Go on with the result of a run. -/
def andThen (r : Option ((α × IndexFileHeader) × σ))
    (f : α → IndexFileHeader → σ → Option β) : Option β :=
  r.bind fun r => f r.1.1 r.1.2 r.2

@[simp] theorem andThen_some (a : α) (header : IndexFileHeader) (t : σ)
    (f : α → IndexFileHeader → σ → Option β) : andThen (some ((a, header), t)) f = f a header t :=
  rfl

@[simp] theorem andThen_none (f : α → IndexFileHeader → σ → Option β) : andThen none f = none := rfl

/-- A run is simplified from its beginning: what comes later waits for the state. -/
@[congr] theorem andThen_congr {r r' : Option ((α × IndexFileHeader) × σ)}
    {f : α → IndexFileHeader → σ → Option β} (h : r = r') : andThen r f = andThen r' f := by
  rw [h]

/-- A run that goes on with an optional value. -/
@[simp] theorem andThen_map {γ : Type} (o : Option γ) (header : IndexFileHeader) (t : σ)
    (f : α → IndexFileHeader → σ → Option β) (k : γ → α) :
    andThen (o.map fun c => ((k c, header), t)) f = o.bind fun c => f (k c) header t := by
  cases o <;> rfl

variable (hd : Handler (PoolCall (IndexPage K)) σ) (header : IndexFileHeader) (t : σ)

@[simp] theorem exec_bind (x : TreeM K α) (f : α → TreeM K β) :
    exec hd (x >>= f) header t =
      andThen (exec hd x header t) fun a header t => exec hd (f a) header t := by
  simp only [exec, StateT.run_bind, Prog.run_bind]
  rfl

@[simp] theorem exec_pure (a : α) :
    exec hd (pure a : TreeM K α) header t = some ((a, header), t) := rfl

@[simp] theorem exec_map (f : α → β) (x : TreeM K α) :
    exec hd (f <$> x) header t = (exec hd x header t).map fun r => ((f r.1.1, r.1.2), r.2) := by
  rw [← bind_pure_comp, exec_bind]
  cases exec hd x header t <;> rfl

@[simp] theorem exec_fail : exec hd (TreeM.fail : TreeM K α) header t = none := rfl

@[simp] theorem exec_get : exec hd (get : TreeM K IndexFileHeader) header t =
    some ((header, header), t) :=
  rfl

@[simp] theorem exec_modify (f : IndexFileHeader → IndexFileHeader) :
    exec hd (modify f : TreeM K Unit) header t = some (((), f header), t) := rfl

@[simp] theorem exec_set (h : IndexFileHeader) :
    exec hd (set h : TreeM K Unit) header t = some (((), h), t) := rfl

@[simp] theorem exec_assertSome (a : α) :
    exec hd (TreeM.assertSome (some a) : TreeM K α) header t = some ((a, header), t) := rfl

theorem exec_assert {b : Bool} (hb : b = true) :
    exec hd (TreeM.assert b : TreeM K Unit) header t = some (((), header), t) := by
  subst hb
  rfl

@[simp] theorem exec_ite (c : Prop) [Decidable c] (x y : TreeM K α) :
    exec hd (if c then x else y) header t =
      if c then exec hd x header t else exec hd y header t := by
  split <;> rfl

end sequencing

/-! ## Pool calls -/

section calls

variable (header : IndexFileHeader) (s : FlatPool (IndexPage K)) (p : Int)

@[simp] theorem exec_getThisPage :
    exec flat (getThisPage p) header s = some ((.success, header), s) := rfl

@[simp] theorem exec_page : exec flat (page p) header s = some ((s.page p, header), s) := rfl

@[simp] theorem exec_setPage (n : IndexPage K) :
    exec flat (setPage p n) header s = some (((), header), s.set p n) := rfl

@[simp] theorem exec_markDirty : exec flat (markDirty p) header s = some (((), header), s) := rfl

@[simp] theorem exec_unpinPage :
    exec flat (unpinPage p) header s = some ((.success, header), s) := rfl

@[simp] theorem exec_allocatePage :
    exec flat allocatePage header s =
      some (((.success, (s.freePage : Int)), header), s.allocate) := rfl

@[simp] theorem exec_disposePage :
    exec flat (disposePage p) header s = some ((.success, header), s.dispose p) := rfl

end calls

/-! ## Access to nodes -/

section nodes

variable {header : IndexFileHeader} {s : FlatPool (IndexPage K)} {p : Int}

@[simp] theorem exec_leafNode :
    exec flat (leafNode p) header s =
      match s.page p with
      | .leaf n => some ((n, header), s)
      | _ => none := by
  simp only [leafNode, exec_bind, exec_page, andThen_some]
  split <;> simp [*]

@[simp] theorem exec_internalNode :
    exec flat (internalNode p) header s =
      match s.page p with
      | .internal n => some ((n, header), s)
      | _ => none := by
  simp only [internalNode, exec_bind, exec_page, andThen_some]
  split <;> simp [*]

@[simp] theorem exec_modifyLeaf (f : LeafIndexNode K → LeafIndexNode K) :
    exec flat (modifyLeaf p f) header s =
      match s.page p with
      | .leaf n => some (((), header), s.set p (.leaf (f n)))
      | _ => none := by
  simp only [modifyLeaf, exec_bind, exec_leafNode]
  split <;> simp

@[simp] theorem exec_modifyInternal (f : InternalIndexNode K → InternalIndexNode K) :
    exec flat (modifyInternal p f) header s =
      match s.page p with
      | .internal n => some (((), header), s.set p (.internal (f n)))
      | _ => none := by
  simp only [modifyInternal, exec_bind, exec_internalNode]
  split <;> simp

@[simp] theorem exec_keyAt (index : ℕ) :
    exec flat (keyAt p index) header s =
      ((s.page p).keyAt? index).map fun k => ((k, header), s) := by
  simp only [keyAt, exec_bind, exec_page, andThen_some]
  cases (s.page p).keyAt? index <;> simp [TreeM.assertSome]

@[simp] theorem exec_valueAt (n : InternalIndexNode K) (index : ℕ) :
    exec flat (valueAt n index) header s = n.items[index]?.map fun e => ((e.2, header), s) := by
  simp only [valueAt]
  cases n.items[index]? <;> simp [TreeM.assertSome]

@[simp] theorem exec_setParentPageNum (q : Int) :
    exec flat (setParentPageNum p q) header s =
      some (((), header), s.set p ((s.page p).setParentPageNum q)) := by
  simp [setParentPageNum]

end nodes

/-! ## Moving items -/

section moves

variable {header : IndexFileHeader} {s : FlatPool (IndexPage K)} {p q : Int}

/-- The pages after the children `cs` have been given the parent `P`. -/
def reparent (s : FlatPool (IndexPage K)) (P : Int) (cs : List Int) : FlatPool (IndexPage K) :=
  { s with page := fun x => if x ∈ cs then (s.page x).setParentPageNum P else s.page x }

@[simp] theorem reparent_page (P : Int) (cs : List Int) (x : Int) :
    (reparent s P cs).page x = if x ∈ cs then (s.page x).setParentPageNum P else s.page x := rfl

/-- The loop of `copy_from`. -/
@[simp] theorem exec_setChildrenParent (P : Int) (items : List (K × Int)) :
    exec flat (setChildrenParent P items) header s =
      some ((.success, header), reparent s P (items.map Prod.snd)) := by
  induction items generalizing s with
  | nil => simp [setChildrenParent, reparent]
  | cons e items ih =>
      have hstep : reparent (s.set e.2 ((s.page e.2).setParentPageNum P)) P (items.map Prod.snd) =
          reparent s P (e.2 :: items.map Prod.snd) := by
        simp only [reparent, FlatPool.set_page, FlatPool.set_bitmap, FlatPool.set_pageCount,
          List.mem_cons]
        congr 1
        funext x
        by_cases hx : x = e.2 <;> by_cases hx' : x ∈ items.map Prod.snd <;>
          simp [hx, hx']
      simp [setChildrenParent, ih, hstep]

/-- Splitting a leaf. -/
theorem exec_split_leaf {n : LeafIndexNode K} (hp : s.page p = .leaf n) (hq : p ≠ s.freePage) :
    exec flat (split .leaf p) header s = some (((.success, (s.freePage : Int)), header),
      (s.allocate.set s.freePage (.leaf ⟨n.parent, bpInvalidPageNum, bpInvalidPageNum,
        n.items.drop (n.items.length / 2)⟩)).set p
        (.leaf { n with items := n.items.take (n.items.length / 2) })) := by
  have hp' := s.allocate_page_of_ne hq
  simp [split, moveHalfTo, hp, hp', hq, IndexPage.initEmpty, IndexPage.parentPageNum,
    IndexPage.setParentPageNum]

/-- The file after the internal node `n` on page `p` has been split. -/
def splitInternal (s : FlatPool (IndexPage K)) (p : Int) (n : InternalIndexNode K) :
    FlatPool (IndexPage K) :=
  ((reparent (s.allocate.set s.freePage (.internal ⟨n.parent, []⟩)) s.freePage
      ((n.items.drop (n.items.length / 2)).map Prod.snd)).set s.freePage
    (.internal ⟨n.parent, n.items.drop (n.items.length / 2)⟩)).set p
    (.internal { n with items := n.items.take (n.items.length / 2) })

theorem splitInternal_page (s : FlatPool (IndexPage K)) (p : Int) (n : InternalIndexNode K)
    (x : Int) :
    (splitInternal s p n).page x =
      if x = p then .internal { n with items := n.items.take (n.items.length / 2) }
      else if x = s.freePage then .internal ⟨n.parent, n.items.drop (n.items.length / 2)⟩
      else if x ∈ (n.items.drop (n.items.length / 2)).map Prod.snd then
        (s.page x).setParentPageNum s.freePage
      else s.page x := by
  by_cases hp : x = p
  · simp [splitInternal, hp]
  · by_cases hq : x = s.freePage
    · simp [splitInternal, hq]
    · simp [splitInternal, hp, hq, s.allocate_page_of_ne hq]

/-- Splitting an internal node. -/
theorem exec_split_internal {n : InternalIndexNode K} (hp : s.page p = .internal n)
    (hq : p ≠ s.freePage) (hpc : p ∉ n.items.map Prod.snd)
    (hqc : (s.freePage : Int) ∉ n.items.map Prod.snd) :
    exec flat (split .internal p) header s =
      some (((.success, (s.freePage : Int)), header), splitInternal s p n) := by
  have hp' := s.allocate_page_of_ne hq
  have hsub : ∀ {x : Int}, x ∉ n.items.map Prod.snd →
      x ∉ (n.items.map Prod.snd).drop (n.items.length / 2) := fun hx hmem =>
    hx (List.mem_of_mem_drop hmem)
  simp [split, moveHalfTo, copyFrom, hp, hp', hq, IndexPage.initEmpty, IndexPage.parentPageNum,
    IndexPage.setParentPageNum, hsub hqc, hsub hpc, splitInternal]

/-- Writing the root page number to the header page. -/
theorem exec_updateRootPageNum {h : IndexFileHeader} (h1 : s.page firstIndexPage = .header h) :
    exec flat updateRootPageNum header s = some ((.success, header),
      s.set firstIndexPage (.header { h with rootPage := header.rootPage })) := by
  simp [updateRootPageNum, h1]

end moves

end Miniob.Storage.Index
