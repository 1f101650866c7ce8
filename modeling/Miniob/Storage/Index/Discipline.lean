import Miniob.Storage.Index.Books
import Miniob.Storage.Index.Scanner

/-!
# Pins and dirty marks of the tree handler

`Keeps L header s x Q`: started with the handles `L`, the program `x` changes pages only through
handles, lets no changed page go without a mark, and ends with handles for which `Q` holds. The
rules below are for one call each; a program is checked by going through it call by call. Nothing
is assumed about the file `s`, so a rule for a program holds on every file; pages may coincide.

* `Keeps.bind`: sequencing, with the state of the flat run for programs whose pins depend on what
  they read.
* `keeps_split`, `keeps_insertEntryIntoParent`, `keeps_redistribute`: the parts of inserting and
  deleting that mark what they change.
-/

namespace Miniob.Storage.Index

open Miniob.Lib
open Miniob.Storage.BufferPool (PoolCall FlatPool flat tracked Handles HandleState Marks)

variable {K α β : Type} {L : Handles} {header : IndexFileHeader} {s : FlatPool (IndexPage K)}
  {p q : Int} {st : HandleState}

/-- The program keeps the discipline of the handles. -/
def Keeps (L : Handles) (header : IndexFileHeader) (s : FlatPool (IndexPage K)) (x : TreeM K α)
    (Q : α → Handles → Prop) : Prop :=
  ∀ t : Marks, t.Holds L → ∀ a header' s' t',
    exec tracked x header (s, t) = some ((a, header'), (s', t')) → ∃ L', t'.Holds L' ∧ Q a L'

/-- The books of the discipline: one pin for each handle. -/
abbrev Held (L : Handles) (t : Marks) : Prop := t.Holds L

/-! ## Sequencing -/

section sequencing

variable {x : TreeM K α} {f : α → TreeM K β} {Q : β → Handles → Prop} {R : α → Handles → Prop}

theorem Keeps.bind (hx : Keeps L header s x R)
    (hf : ∀ a header' s' L', exec flat x header s = some ((a, header'), s') → R a L' →
      Keeps L' header' s' (f a) Q) : Keeps L header s (x >>= f) Q :=
  Follows.bind (I := Held) hx hf

theorem Keeps.mono {Q' : α → Handles → Prop} (hx : Keeps L header s x R)
    (h : ∀ a L', R a L' → Q' a L') : Keeps L header s x Q' :=
  Follows.mono (I := Held) hx h

theorem Keeps.pure {a : α} (h : R a L) : Keeps L header s (pure a : TreeM K α) R :=
  Follows.pure (I := Held) h

theorem Keeps.fail : Keeps L header s (TreeM.fail : TreeM K α) R :=
  Follows.fail (I := Held)

theorem Keeps.ite {c : Prop} [Decidable c] {y : TreeM K α} (hx : c → Keeps L header s x R)
    (hy : ¬ c → Keeps L header s y R) : Keeps L header s (if c then x else y) R :=
  Follows.ite (I := Held) hx hy

theorem Keeps.perm {L' : Handles} (hperm : L.Perm L') (hx : Keeps L' header s x R) :
    Keeps L header s x R :=
  Follows.weaken (I := Held) (fun _ ht => ht.perm hperm) hx

/-- A call that has not failed. -/
theorem Keeps.ok {y : TreeM K α} (hy : Keeps L header s y R) :
    Keeps L header s (if RC.success ≠ RC.success then x else y) R :=
  Follows.ok (I := Held) hy

/-- A call whose effect on the handles is known. -/
theorem Keeps.step {L' : Handles} {a : α} {header' : IndexFileHeader}
    {s' : FlatPool (IndexPage K)} (t' : Marks → Marks)
    (hx : ∀ t, exec tracked x header (s, t) = some ((a, header'), (s', t' t)))
    (hL : ∀ t : Marks, t.Holds L → (t' t).Holds L') (hf : Keeps L' header' s' (f a) Q) :
    Keeps L header s (x >>= f) Q :=
  Follows.step (I := Held) t' hx hL hf

theorem Keeps.assert {b : Bool} {f : Unit → TreeM K β} (hf : Keeps L header s (f ()) Q) :
    Keeps L header s (TreeM.assert b >>= f) Q :=
  Follows.assert (I := Held) hf

theorem Keeps.assertSome {o : Option α} (hf : ∀ a, o = some a → Keeps L header s (f a) Q) :
    Keeps L header s (TreeM.assertSome o >>= f) Q :=
  Follows.assertSome (I := Held) hf

theorem Keeps.get {f : IndexFileHeader → TreeM K β} (hf : Keeps L header s (f header) Q) :
    Keeps L header s (get >>= f) Q :=
  Follows.get (I := Held) hf

theorem Keeps.modify {g : IndexFileHeader → IndexFileHeader} {f : Unit → TreeM K β}
    (hf : Keeps L (g header) s (f ()) Q) : Keeps L header s (modify g >>= f) Q :=
  Follows.modify (I := Held) hf

theorem Keeps.set {h : IndexFileHeader} {f : PUnit → TreeM K β} (hf : Keeps L h s (f ⟨⟩) Q) :
    Keeps L header s (set h >>= f) Q :=
  Follows.set (I := Held) hf

end sequencing

/-! ## Calls on the pool -/

section calls

variable {Q : β → Handles → Prop} {i : ℕ}

theorem Keeps.getThisPage {f : RC → TreeM K β}
    (hf : Keeps ((p, .clean) :: L) header s (f .success) Q) :
    Keeps L header s (getThisPage p >>= f) Q :=
  Keeps.step (fun t => t.pin p) (fun _ => rfl) (fun _ h => h.pin p) hf

theorem Keeps.page {f : IndexPage K → TreeM K β} (hf : Keeps L header s (f (s.page p)) Q) :
    Keeps L header s (page p >>= f) Q :=
  Follows.page (I := Held) hf

theorem Keeps.setPage (i : ℕ) {n : IndexPage K} {f : Unit → TreeM K β}
    (hi : L[i]? = some (p, st))
    (hf : Keeps (L.set i (p, st.touch)) header (s.set p n) (f ()) Q) :
    Keeps L header s (setPage p n >>= f) Q :=
  Keeps.step (fun t => t.setData p) (fun _ => rfl) (fun _ h => h.setData hi) hf

theorem Keeps.markDirty (i : ℕ) {f : Unit → TreeM K β} (hi : L[i]? = some (p, st))
    (hf : Keeps (L.set i (p, .marked)) header s (f ()) Q) :
    Keeps L header s (markDirty p >>= f) Q :=
  Keeps.step (fun t => t.markDirty p) (fun _ => rfl) (fun _ h => h.markDirty hi) hf

theorem Keeps.unpinPage (i : ℕ) {f : RC → TreeM K β} (hi : L[i]? = some (p, st))
    (hst : st ≠ .touched) (hf : Keeps (L.eraseIdx i) header s (f .success) Q) :
    Keeps L header s (unpinPage p >>= f) Q :=
  Keeps.step (fun t => t.unpinPage p) (fun _ => rfl) (fun _ h => h.unpinPage hi hst) hf

theorem Keeps.allocatePage {f : RC × Int → TreeM K β}
    (hf : Keeps (((s.freePage : Int), .clean) :: L) header s.allocate
      (f (.success, s.freePage)) Q) :
    Keeps L header s (allocatePage >>= f) Q :=
  Keeps.step (fun t => t.pin s.freePage) (fun _ => rfl) (fun _ h => h.pin _) hf

theorem Keeps.disposePage {f : RC → TreeM K β} (hp : p ∉ L.map Prod.fst)
    (hf : Keeps L header (s.dispose p) (f .success) Q) :
    Keeps L header s (disposePage p >>= f) Q :=
  Keeps.step (fun t => t.disposePage p) (fun _ => rfl) (fun _ h => h.disposePage hp) hf

/-- `sync` with no page pinned. -/
theorem keeps_sync : Keeps [] header s (sync : TreeM K RC) fun _ L' => L' = [] := by
  intro t ht a header' s' t' hrun
  have hrun' : some ((RC.success, header), (s, t.flushAllPages)) = some ((a, header'), (s', t')) :=
    hrun
  simp only [Option.some.injEq, Prod.mk.injEq] at hrun'
  obtain ⟨-, -, rfl⟩ := hrun'
  exact ⟨[], ht.flushAllPages, rfl⟩

end calls

/-! ## Access to nodes -/

section nodes

variable {Q : β → Handles → Prop}

theorem Keeps.leafNode {f : LeafIndexNode K → TreeM K β}
    (hf : ∀ n, s.page p = .leaf n → Keeps L header s (f n) Q) :
    Keeps L header s (leafNode p >>= f) Q :=
  Follows.leafNode (I := Held) hf

theorem Keeps.internalNode {f : InternalIndexNode K → TreeM K β}
    (hf : ∀ n, s.page p = .internal n → Keeps L header s (f n) Q) :
    Keeps L header s (internalNode p >>= f) Q :=
  Follows.internalNode (I := Held) hf

theorem Keeps.modifyLeaf (i : ℕ) {g : LeafIndexNode K → LeafIndexNode K} {f : Unit → TreeM K β}
    (hi : L[i]? = some (p, st))
    (hf : ∀ n, s.page p = .leaf n →
      Keeps (L.set i (p, st.touch)) header (s.set p (.leaf (g n))) (f ()) Q) :
    Keeps L header s (modifyLeaf p g >>= f) Q := by
  unfold Index.modifyLeaf
  rw [bind_assoc]
  exact Keeps.leafNode fun n hn => Keeps.setPage i hi (hf n hn)

theorem Keeps.modifyInternal (i : ℕ) {g : InternalIndexNode K → InternalIndexNode K}
    {f : Unit → TreeM K β} (hi : L[i]? = some (p, st))
    (hf : ∀ n, s.page p = .internal n →
      Keeps (L.set i (p, st.touch)) header (s.set p (.internal (g n))) (f ()) Q) :
    Keeps L header s (modifyInternal p g >>= f) Q := by
  unfold Index.modifyInternal
  rw [bind_assoc]
  exact Keeps.internalNode fun n hn => Keeps.setPage i hi (hf n hn)

theorem Keeps.setParentPageNum (i : ℕ) {f : Unit → TreeM K β} (hi : L[i]? = some (p, st))
    (hf : Keeps (L.set i (p, st.touch)) header (s.set p ((s.page p).setParentPageNum q)) (f ()) Q) :
    Keeps L header s (setParentPageNum p q >>= f) Q := by
  unfold Index.setParentPageNum
  rw [bind_assoc]
  exact Keeps.page (Keeps.setPage i hi hf)

theorem Keeps.keyAt {index : ℕ} {f : K → TreeM K β}
    (hf : ∀ k, (s.page p).keyAt? index = some k → Keeps L header s (f k) Q) :
    Keeps L header s (keyAt p index >>= f) Q :=
  Follows.keyAt (I := Held) hf

theorem Keeps.valueAt {n : InternalIndexNode K} {index : ℕ} {f : Int → TreeM K β}
    (hf : ∀ e, n.items[index]? = some e → Keeps L header s (f e.2) Q) :
    Keeps L header s (valueAt n index >>= f) Q :=
  Follows.valueAt (I := Held) hf

end nodes

/-! ## Creating -/

/-- Making an index keeps the discipline of the handles. -/
theorem keeps_create (attrLength internalMaxSize leafMaxSize : Int) :
    Keeps [] header (FlatPool.created : FlatPool (IndexPage K))
      (create attrLength internalMaxSize leafMaxSize) fun _ L' => L' = [] := by
  have hfree : (FlatPool.created : FlatPool (IndexPage K)).freePage = 1 := by
    simp [FlatPool.freePage, FlatPool.created]
  unfold create
  refine Keeps.allocatePage (Keeps.ok (Keeps.ite (fun hne => ?_) fun _ => ?_))
  · exact absurd (by rw [hfree]; rfl) hne
  · refine Keeps.setPage 0 rfl (Keeps.markDirty 0 rfl ?_)
    exact Keeps.set (Keeps.unpinPage 0 rfl (by decide) (Keeps.pure rfl))

/-! ## Searching -/

section searching

/-- The descent holds one handle at a time. -/
theorem keeps_findLeafLoop (index : InternalIndexNode K → ℕ) (fuel : ℕ) :
    Keeps ((p, .clean) :: L) header s (findLeafLoop (fun n => valueAt n (index n)) fuel p)
      fun r L' => r.1 = .success ∧ L' = (r.2, .clean) :: L := by
  induction fuel generalizing p s with
  | zero => exact Keeps.fail
  | succ fuel ih =>
      unfold findLeafLoop
      refine Keeps.page (Keeps.ite (fun _ => Keeps.pure ⟨rfl, rfl⟩) fun _ => ?_)
      refine Keeps.internalNode fun n _ => Keeps.valueAt fun e _ => ?_
      refine Keeps.unpinPage 0 rfl (by decide) (Keeps.getThisPage (Keeps.ok ?_))
      exact ih

/-- A search reports an empty tree, or ends with a handle for a leaf. -/
theorem keeps_findLeafInternal (index : InternalIndexNode K → ℕ) (fuel : ℕ) :
    Keeps L header s (findLeafInternal fuel fun n => valueAt n (index n)) fun r L' =>
      r.1 = .empty ∧ L' = L ∨ r.1 = .success ∧ L' = (r.2, .clean) :: L := by
  unfold findLeafInternal isEmpty
  rw [bind_assoc]
  refine Keeps.get ?_
  rw [pure_bind]
  refine Keeps.ite (fun _ => Keeps.pure (Or.inl ⟨rfl, rfl⟩)) fun _ => ?_
  refine Keeps.get (Keeps.getThisPage (Keeps.ok ?_))
  exact (keeps_findLeafLoop index fuel).mono fun r L' h => Or.inr h

end searching

/-! ## Inserting -/

section inserting

theorem keeps_updateRootPageNum :
    Keeps L header s (updateRootPageNum : TreeM K RC) fun rc L' => rc = .success ∧ L' = L := by
  unfold updateRootPageNum
  refine Keeps.getThisPage (Keeps.ok (Keeps.get (Keeps.page ?_)))
  cases s.page firstIndexPage with
  | header h =>
      refine Keeps.setPage 0 rfl (Keeps.markDirty 0 rfl (Keeps.unpinPage 0 rfl (by decide) ?_))
      exact Keeps.pure ⟨rfl, rfl⟩
  | leaf n => exact Keeps.fail
  | internal n => exact Keeps.fail

theorem keeps_createNewTree (key : K) (rid : RID) :
    Keeps [] header s (createNewTree key rid) fun _ L' => L' = [] := by
  unfold createNewTree
  refine Keeps.get (Keeps.ite (fun _ => Keeps.pure rfl) fun _ => ?_)
  refine Keeps.allocatePage (Keeps.ok (Keeps.setPage 0 rfl ?_))
  refine Keeps.modifyLeaf 0 rfl fun n _ => Keeps.modify (Keeps.markDirty 0 rfl ?_)
  refine Keeps.unpinPage 0 rfl (by decide) ?_
  exact keeps_updateRootPageNum.mono fun _ _ h => h.2

/-- The children are fetched, changed, marked and let go one by one. -/
theorem keeps_setChildrenParent (P : Int) (items : List (K × Int)) :
    Keeps L header s (setChildrenParent P items) fun rc L' => rc = .success ∧ L' = L := by
  induction items generalizing s with
  | nil => exact Keeps.pure ⟨rfl, rfl⟩
  | cons e items ih =>
      unfold setChildrenParent
      refine Keeps.getThisPage (Keeps.ok (Keeps.setParentPageNum 0 rfl ?_))
      exact Keeps.markDirty 0 rfl (Keeps.unpinPage 0 rfl (by decide) ih)

theorem keeps_copyFrom (i : ℕ) (hi : L[i]? = some (p, st)) (items : List (K × Int)) :
    Keeps L header s (copyFrom p items)
      fun rc L' => rc = .success ∧ L' = L.set i (p, st.touch) := by
  unfold copyFrom
  refine Keeps.bind (keeps_setChildrenParent p items) fun rc header' s' L' _ h => ?_
  obtain ⟨rfl, rfl⟩ := h
  exact Keeps.ok (Keeps.modifyInternal i hi fun n _ => Keeps.pure ⟨rfl, rfl⟩)

/-- A split marks both halves. -/
theorem keeps_split (kind : NodeKind) :
    Keeps ((p, st) :: L) header s (split kind p) fun r L' =>
      r.1 = .success ∧ L' = (r.2, .marked) :: (p, .marked) :: L := by
  unfold split
  refine Keeps.allocatePage (Keeps.ok (Keeps.setPage 0 rfl (Keeps.page ?_)))
  refine Keeps.setParentPageNum 0 rfl ?_
  cases kind with
  | leaf =>
      unfold moveHalfTo
      rw [bind_assoc]
      refine Keeps.leafNode fun n _ => ?_
      rw [bind_assoc]
      refine Keeps.modifyLeaf 0 rfl fun o _ => ?_
      rw [bind_assoc]
      refine Keeps.modifyLeaf 1 rfl fun n' _ => ?_
      rw [pure_bind]
      exact Keeps.markDirty 1 rfl (Keeps.markDirty 0 rfl (Keeps.pure ⟨rfl, rfl⟩))
  | internal =>
      unfold moveHalfTo
      rw [bind_assoc]
      refine Keeps.internalNode fun n _ => ?_
      rw [bind_assoc]
      refine Keeps.bind (keeps_copyFrom 0 rfl _) fun rc header' s' L' _ h => ?_
      obtain ⟨rfl, rfl⟩ := h
      simp only [ne_eq, not_true_eq_false, if_false]
      rw [bind_assoc]
      refine Keeps.modifyInternal 1 rfl fun n' _ => ?_
      rw [pure_bind]
      exact Keeps.markDirty 1 rfl (Keeps.markDirty 0 rfl (Keeps.pure ⟨rfl, rfl⟩))

variable [Inhabited K]

theorem keeps_insertNewRoot (key : K) :
    Keeps [(q, .marked), (p, .marked)] header s (insertNewRoot p q key)
      fun rc L' => rc = .success ∧ L' = [] := by
  unfold insertNewRoot
  refine Keeps.allocatePage (Keeps.ok (Keeps.setPage 0 rfl ?_))
  refine Keeps.modifyInternal 0 rfl fun n _ => Keeps.setParentPageNum 2 rfl ?_
  refine Keeps.setParentPageNum 1 rfl (Keeps.markDirty 2 rfl (Keeps.markDirty 1 rfl ?_))
  refine Keeps.unpinPage 2 rfl (by decide) (Keeps.unpinPage 1 rfl (by decide) (Keeps.modify ?_))
  refine Keeps.bind keeps_updateRootPageNum fun rc header' s' L' _ h => ?_
  obtain ⟨-, rfl⟩ := h
  exact Keeps.markDirty 0 rfl (Keeps.unpinPage 0 rfl (by decide) (Keeps.pure ⟨rfl, rfl⟩))

/-- Every level marks the halves it passes on to the next. -/
theorem keeps_insertEntryIntoParent (comparator : K → K → Int) (fuel : ℕ) (key : K) :
    Keeps [(q, .marked), (p, .marked)] header s (insertEntryIntoParent comparator fuel p q key)
      fun rc L' => rc = .success ∧ L' = [] := by
  induction fuel generalizing p q key header s with
  | zero => exact Keeps.fail
  | succ fuel ih =>
      unfold insertEntryIntoParent
      refine Keeps.page (Keeps.ite (fun _ => keeps_insertNewRoot key) fun _ => ?_)
      refine Keeps.getThisPage (Keeps.ok (Keeps.internalNode fun n _ => Keeps.get ?_))
      refine Keeps.ite (fun _ => ?_) fun _ => ?_
      · refine Keeps.modifyInternal 0 rfl fun n _ => Keeps.setParentPageNum 1 rfl ?_
        refine Keeps.markDirty 2 rfl (Keeps.markDirty 1 rfl (Keeps.markDirty 0 rfl ?_))
        refine Keeps.unpinPage 2 rfl (by decide) (Keeps.unpinPage 1 rfl (by decide) ?_)
        exact Keeps.unpinPage 0 rfl (by decide) (Keeps.pure ⟨rfl, rfl⟩)
      · refine Keeps.bind (keeps_split .internal) fun r header' s' L' _ h => ?_
        obtain ⟨rc, r⟩ := r
        obtain ⟨rfl, rfl⟩ := h
        refine Keeps.ok (Keeps.keyAt fun k _ => ?_)
        -- the halves of the lower level were marked when it was split
        have hrest : ∀ header' s', Keeps [(r, .marked), ((s.page p).parentPageNum, .marked),
            (q, .marked), (p, .marked)] header' s' (do
              let _ ← unpinPage p
              let _ ← unpinPage q
              insertEntryIntoParent comparator fuel (s.page p).parentPageNum r (← keyAt r 0))
            fun rc L' => rc = .success ∧ L' = [] := by
          intro header' s'
          refine Keeps.unpinPage 3 rfl (by decide) (Keeps.unpinPage 2 rfl (by decide) ?_)
          exact Keeps.keyAt fun k _ => ih k
        refine Keeps.ite (fun _ => ?_) fun _ => ?_
        · refine Keeps.modifyInternal 0 rfl fun n _ => Keeps.setParentPageNum 2 rfl ?_
          exact hrest _ _
        · refine Keeps.modifyInternal 1 rfl fun n _ => Keeps.setParentPageNum 2 rfl ?_
          exact hrest _ _

/-- The insert splits a full leaf that has a leaf after it. The link back from that leaf is changed
and not marked. -/
def SplitsBeforeBrother (comparator : K → K → Int) (header : IndexFileHeader) (key : K) :
    IndexPage K → Prop
  | .leaf n => (n.lookup comparator key).2 = false ∧ header.leafMaxSize ≤ n.items.length ∧
      n.nextBrother ≠ bpInvalidPageNum
  | _ => False

instance (comparator : K → K → Int) (header : IndexFileHeader) (key : K) (n : IndexPage K) :
    Decidable (SplitsBeforeBrother comparator header key n) :=
  match n with
  | .leaf _ => inferInstanceAs (Decidable (_ ∧ _ ∧ _))
  | .internal _ => inferInstanceAs (Decidable False)
  | .header _ => inferInstanceAs (Decidable False)

theorem keeps_insertEntryIntoLeafNode (comparator : K → K → Int) (fuel : ℕ) (key : K) (rid : RID)
    (hfree : p ≠ s.freePage) (hsafe : ¬ SplitsBeforeBrother comparator header key (s.page p)) :
    Keeps [(p, .clean)] header s (insertEntryIntoLeafNode comparator fuel p key rid)
      fun rc L' => rc = .recordDuplicateKey ∧ L' = [(p, .clean)] ∨ rc = .success ∧ L' = [] := by
  unfold insertEntryIntoLeafNode
  refine Keeps.leafNode fun n hn => ?_
  rw [hn, SplitsBeforeBrother] at hsafe
  obtain ⟨position, found, hlookup⟩ : ∃ i b, n.lookup comparator key = (i, b) := ⟨_, _, rfl⟩
  rw [hlookup] at hsafe ⊢
  refine Keeps.ite (fun _ => Keeps.pure (Or.inl ⟨rfl, rfl⟩)) fun hnew => Keeps.get ?_
  refine Keeps.ite (fun _ => ?_) fun hfull => ?_
  · refine Keeps.modifyLeaf 0 rfl fun n _ => Keeps.markDirty 0 rfl ?_
    exact Keeps.unpinPage 0 rfl (by decide) (Keeps.pure (Or.inr ⟨rfl, rfl⟩))
  · have hlast : n.nextBrother = bpInvalidPageNum := by
      by_contra hnext
      exact hsafe ⟨by simpa using hnew, not_lt.mp hfull, hnext⟩
    refine Keeps.bind (keeps_split .leaf) fun r header' s' L' hsplit h => ?_
    obtain ⟨rc, r⟩ := r
    obtain ⟨rfl, rfl⟩ := h
    rw [exec_split_leaf hn hfree, Option.some.injEq, Prod.mk.injEq, Prod.mk.injEq,
      Prod.mk.injEq] at hsplit
    obtain ⟨⟨⟨-, rfl⟩, rfl⟩, rfl⟩ := hsplit
    refine Keeps.ok (Keeps.leafNode fun m hm => ?_)
    have hnext : m.nextBrother = bpInvalidPageNum := by
      simp only [FlatPool.set_page, if_true, IndexPage.leaf.injEq] at hm
      rw [← hm]
      exact hlast
    refine Keeps.modifyLeaf 0 rfl fun _ _ => Keeps.modifyLeaf 0 rfl fun o _ => ?_
    refine Keeps.modifyLeaf 0 rfl fun o' ho' => Keeps.modifyLeaf 1 rfl fun _ _ => ?_
    refine Keeps.leafNode fun o'' ho'' => ?_
    have hend : o''.nextBrother = bpInvalidPageNum := by
      simp only [FlatPool.set_page, if_true, Ne.symm hfree, if_false, IndexPage.leaf.injEq]
        at ho' ho''
      rw [← ho'', ← ho']
      exact hnext
    refine Keeps.ite (fun hne => absurd hend hne) fun _ => Keeps.leafNode fun m' _ => ?_
    refine Keeps.ite (fun _ => ?_) fun _ => ?_
    · refine Keeps.modifyLeaf 1 rfl fun _ _ => Keeps.keyAt fun k _ => ?_
      exact (keeps_insertEntryIntoParent comparator fuel k).mono fun _ _ h => Or.inr h
    · refine Keeps.modifyLeaf 0 rfl fun _ _ => Keeps.keyAt fun k _ => ?_
      exact (keeps_insertEntryIntoParent comparator fuel k).mono fun _ _ h => Or.inr h

/-- Inserting keeps the discipline, unless it splits a leaf that has a leaf after it. -/
theorem keeps_insertEntry (comparator : K → K → Int) (fuel : ℕ) (key : K) (rid : RID)
    (hsafe : ∀ leaf header' s', exec flat (findLeaf comparator fuel key) header s =
      some (((.success, leaf), header'), s') → leaf ≠ s'.freePage ∧
        ¬ SplitsBeforeBrother comparator header' key (s'.page leaf)) :
    Keeps [] header s (insertEntry comparator fuel key rid) fun _ L' => L' = [] := by
  unfold insertEntry isEmpty
  rw [bind_assoc]
  refine Keeps.get ?_
  rw [pure_bind]
  refine Keeps.ite (fun _ => keeps_createNewTree key rid) fun _ => ?_
  refine Keeps.bind (keeps_findLeafInternal (fun n => (n.lookup comparator key).1) fuel)
    fun r header' s' L' hfind h => ?_
  obtain ⟨rc, leaf⟩ := r
  rcases h with ⟨rfl, rfl⟩ | ⟨rfl, rfl⟩
  · exact Keeps.ite (fun _ => Keeps.pure rfl) fun hne => absurd (by decide) hne
  · obtain ⟨hfree, hsafe⟩ := hsafe leaf header' s' hfind
    refine Keeps.ok (Keeps.bind (keeps_insertEntryIntoLeafNode comparator fuel key rid hfree hsafe)
      fun rc header'' s'' L' _ h => ?_)
    rcases h with ⟨rfl, rfl⟩ | ⟨rfl, rfl⟩
    · refine Keeps.ite (fun _ => ?_) fun hne => absurd (by decide) hne
      exact Keeps.unpinPage 0 rfl (by decide) (Keeps.pure rfl)
    · exact Keeps.ok (Keeps.pure rfl)

end inserting

/-! ## Deleting -/

section deleting

/-- Moving an item between two neighbours marks both and their parent. -/
theorem keeps_redistribute_leaf {P : Int} (index : ℕ) {st₁ st₂ st₃ : HandleState} :
    Keeps [(q, st₁), (P, st₂), (p, st₃)] header s (redistribute (K := K) .leaf q p P index)
      fun _ L' => L' = [] := by
  -- whatever is changed, all three are marked at the end
  have hend : ∀ {st₁ st₂ st₃ : HandleState} {header : IndexFileHeader}
      {s : FlatPool (IndexPage K)}, Keeps [(q, st₁), (P, st₂), (p, st₃)] header s
        (do
          markDirty q
          markDirty p
          markDirty P
          let _ ← unpinPage P
          let _ ← unpinPage q
          let _ ← unpinPage p
          return RC.success) fun _ L' => L' = [] := by
    intro st₁ st₂ st₃ header s
    refine Keeps.markDirty 0 rfl (Keeps.markDirty 2 rfl (Keeps.markDirty 1 rfl ?_))
    refine Keeps.unpinPage 1 rfl (by decide) (Keeps.unpinPage 0 rfl (by decide) ?_)
    exact Keeps.unpinPage 0 rfl (by decide) (Keeps.pure rfl)
  unfold redistribute
  refine Keeps.ite (fun _ => ?_) fun _ => ?_
  · unfold moveFirstToEnd
    rw [bind_assoc]
    refine Keeps.leafNode fun n _ => ?_
    rw [bind_assoc]
    refine Keeps.assertSome fun e _ => ?_
    rw [bind_assoc]
    refine Keeps.modifyLeaf 2 rfl fun _ _ => ?_
    rw [bind_assoc]
    refine Keeps.modifyLeaf 0 rfl fun _ _ => ?_
    rw [pure_bind]
    refine Keeps.keyAt fun k _ => Keeps.internalNode fun N _ => Keeps.assert ?_
    exact Keeps.modifyInternal 1 rfl fun _ _ => hend
  · unfold moveLastToFront
    rw [bind_assoc]
    refine Keeps.leafNode fun n _ => ?_
    rw [bind_assoc]
    refine Keeps.assertSome fun e _ => ?_
    rw [bind_assoc]
    refine Keeps.modifyLeaf 2 rfl fun _ _ => ?_
    rw [bind_assoc]
    refine Keeps.modifyLeaf 0 rfl fun _ _ => ?_
    rw [pure_bind]
    refine Keeps.keyAt fun k _ => Keeps.internalNode fun N _ => Keeps.assert ?_
    exact Keeps.modifyInternal 1 rfl fun _ _ => hend

/-- A root leaf is marked, or disposed of when nobody holds it any more. -/
theorem keeps_adjustRoot_leaf {n : LeafIndexNode K} (hn : s.page p = .leaf n) :
    Keeps [(p, .marked)] header s (adjustRoot (K := K) p) fun _ L' => L' = [] := by
  unfold adjustRoot
  refine Keeps.page ?_
  rw [hn]
  refine Keeps.ite (fun _ => ?_) fun _ => ?_
  · exact Keeps.markDirty 0 rfl (Keeps.unpinPage 0 rfl (by decide) (Keeps.pure rfl))
  · simp only [IndexPage.isLeaf, if_true]
    refine Keeps.modify (Keeps.bind keeps_updateRootPageNum fun rc header' s' L' _ h => ?_)
    obtain ⟨-, rfl⟩ := h
    refine Keeps.unpinPage 0 rfl (by decide) (Keeps.disposePage ?_ (Keeps.pure rfl))
    simp

/-- Refilling a leaf keeps the discipline, unless the leaf and its neighbour fit in one. -/
theorem keeps_coalesceOrRedistribute_leaf (comparator : K → K → Int) (fuel : ℕ)
    {n : LeafIndexNode K} (hn : s.page p = .leaf n)
    (hsafe : n.items.length < minSize header .leaf → n.parent ≠ bpInvalidPageNum →
      ∀ N k e, s.page n.parent = .internal N →
        (s.page p).keyAt? ((s.page p).size - 1) = some k →
        N.items[if (N.lookup comparator k).1 = 0 then 1 else (N.lookup comparator k).1 - 1]? =
          some e → header.leafMaxSize < n.items.length + (s.page e.2).size) :
    Keeps [(p, .marked)] header s (coalesceOrRedistribute comparator fuel .leaf p)
      fun _ L' => L' = [] := by
  cases fuel with
  | zero => exact Keeps.fail
  | succ fuel =>
      unfold coalesceOrRedistribute
      refine Keeps.page (Keeps.get (Keeps.ite (fun _ => ?_) fun hless => ?_))
      · exact Keeps.unpinPage 0 rfl (by decide) (Keeps.pure rfl)
      refine Keeps.ite (fun _ => ?_) fun hparent => ?_
      · refine Keeps.ite (fun _ => ?_) fun _ => ?_
        · exact Keeps.unpinPage 0 rfl (by decide) (Keeps.pure rfl)
        · refine Keeps.bind (keeps_adjustRoot_leaf hn) fun rc header' s' L' _ h => ?_
          exact Keeps.pure h
      simp only [hn, IndexPage.parentPageNum, IndexPage.size, not_le] at hparent hless
      refine Keeps.getThisPage (Keeps.ok (Keeps.internalNode fun N hN => Keeps.keyAt fun k hk => ?_))
      rw [show (s.page p).parentPageNum = n.parent by rw [hn]; rfl] at hN ⊢
      have hsafe := fun e => hsafe hless hparent N k e hN hk
      obtain ⟨index, position, hlookup⟩ : ∃ i j, N.lookup comparator k = (i, j) := ⟨_, _, rfl⟩
      rw [hlookup] at hsafe ⊢
      refine Keeps.valueAt fun e₀ _ => ?_
      have hrest : ∀ e, N.items[if index = 0 then 1 else index - 1]? = some e →
          Keeps [(n.parent, .clean), (p, .marked)] header s (do
            let rc ← getThisPage e.2
            if rc ≠ .success then
              let _ ← unpinPage p
              let _ ← unpinPage n.parent
              return rc
            let neighbor ← page e.2
            if (s.page p).size + neighbor.size > maxSize (← get) .leaf then
              redistribute .leaf e.2 p n.parent index
            else
              coalesce (coalesceOrRedistribute comparator fuel .internal) .leaf e.2 p n.parent
                index) fun _ L' => L' = [] := by
        intro e he
        have hsum := hsafe e he
        refine Keeps.getThisPage (Keeps.ok (Keeps.page (Keeps.get (Keeps.ite (fun _ => ?_) ?_))))
        · exact keeps_redistribute_leaf _
        · intro hle
          simp only [hn, IndexPage.size, maxSize] at hle hsum
          omega
      split
      next hzero =>
        refine Keeps.valueAt fun e he => ?_
        exact hrest e (by rw [if_pos hzero]; exact he)
      next hzero =>
        refine Keeps.valueAt fun e he => ?_
        exact hrest e (by rw [if_neg hzero]; exact he)

/-- Deleting from a leaf keeps the discipline, unless the leaf is merged. -/
theorem keeps_deleteEntryInternal (comparator : K → K → Int) (fuel : ℕ) (key : K)
    (hsafe : ∀ n n', s.page p = .leaf n → (n.lookup comparator key).2 = true →
      n' = n.remove (n.lookup comparator key).1 → n'.items.length < minSize header .leaf →
      n'.parent ≠ bpInvalidPageNum → ∀ N k e,
        (s.set p (.leaf n')).page n'.parent = .internal N →
        (IndexPage.leaf n').keyAt? (n'.items.length - 1) = some k →
        N.items[if (N.lookup comparator k).1 = 0 then 1 else (N.lookup comparator k).1 - 1]? =
          some e → header.leafMaxSize < n'.items.length + ((s.set p (.leaf n')).page e.2).size) :
    Keeps [(p, .clean)] header s (deleteEntryInternal comparator fuel p key)
      fun _ L' => L' = [] := by
  unfold deleteEntryInternal
  refine Keeps.leafNode fun n hn => ?_
  obtain ⟨index, found, hlookup⟩ : ∃ i b, n.lookup comparator key = (i, b) := ⟨_, _, rfl⟩
  have hsafe := hsafe n (n.remove index) hn
  rw [hlookup] at hsafe ⊢
  refine Keeps.ite (fun hfound => Keeps.assert ?_) fun _ => ?_
  · refine Keeps.modifyLeaf 0 rfl fun n₁ hn₁ => Keeps.markDirty 0 rfl (Keeps.page (Keeps.get ?_))
    obtain rfl : n = n₁ := by
      rw [hn] at hn₁
      exact IndexPage.leaf.inj hn₁
    refine Keeps.ite (fun _ => ?_) fun _ => ?_
    · exact Keeps.unpinPage 0 rfl (by decide) (Keeps.pure rfl)
    · refine keeps_coalesceOrRedistribute_leaf comparator fuel (n := n.remove index) (by simp) ?_
      intro hless hparent N k e hN hk he
      simp only [FlatPool.set_page, if_true, IndexPage.size] at hk
      exact hsafe hfound rfl hless hparent N k e hN hk he
  · exact Keeps.unpinPage 0 rfl (by decide) (Keeps.pure rfl)

/-- Deleting keeps the discipline, unless the leaf is merged. -/
theorem keeps_deleteEntry (comparator : K → K → Int) (fuel : ℕ) (key : K)
    (hsafe : ∀ leaf header' s', exec flat (findLeaf comparator fuel key) header s =
      some (((.success, leaf), header'), s') →
      ∀ n n', s'.page leaf = .leaf n → (n.lookup comparator key).2 = true →
      n' = n.remove (n.lookup comparator key).1 → n'.items.length < minSize header' .leaf →
      n'.parent ≠ bpInvalidPageNum → ∀ N k e,
        (s'.set leaf (.leaf n')).page n'.parent = .internal N →
        (IndexPage.leaf n').keyAt? (n'.items.length - 1) = some k →
        N.items[if (N.lookup comparator k).1 = 0 then 1 else (N.lookup comparator k).1 - 1]? =
          some e →
        header'.leafMaxSize < n'.items.length + ((s'.set leaf (.leaf n')).page e.2).size) :
    Keeps [] header s (deleteEntry comparator fuel key) fun _ L' => L' = [] := by
  unfold deleteEntry
  refine Keeps.bind (keeps_findLeafInternal (fun n => (n.lookup comparator key).1) fuel)
    fun r header' s' L' hfind h => ?_
  obtain ⟨rc, leaf⟩ := r
  rcases h with ⟨rfl, rfl⟩ | ⟨rfl, rfl⟩
  · exact Keeps.ite (fun _ => Keeps.pure rfl) fun hne => absurd (by decide) hne
  · exact Keeps.ok (keeps_deleteEntryInternal comparator fuel key (hsafe leaf header' s' hfind))

end deleting

/-! ## Scanning -/

section scanning

/-- The handles of a scanner. -/
def BplusTreeScanner.handles (scanner : BplusTreeScanner) : Handles :=
  (scanner.rightFrame.toList ++ scanner.leftFrame.toList).map fun frame => (frame, .clean)

theorem keeps_openLeft (comparator : K → K → Int) (fuel : ℕ) (key : Option K) :
    Keeps L header s (openLeft comparator fuel key) fun r L' =>
      L' = r.2.1.toList.map (fun frame => (frame, HandleState.clean)) ++ L := by
  cases key with
  | none =>
      unfold openLeft
      refine Keeps.bind (keeps_findLeafInternal (fun _ => 0) fuel) fun r header' s' L' _ h => ?_
      obtain ⟨rc, leaf⟩ := r
      rcases h with ⟨rfl, rfl⟩ | ⟨rfl, rfl⟩
      · exact Keeps.ite (fun _ => Keeps.pure rfl) fun hne => absurd (by decide) hne
      · exact Keeps.ok (Keeps.pure rfl)
  | some key =>
      unfold openLeft
      refine Keeps.bind (keeps_findLeafInternal (fun n => (n.lookup comparator key).1) fuel)
        fun r header' s' L' _ h => ?_
      obtain ⟨rc, leaf⟩ := r
      rcases h with ⟨rfl, rfl⟩ | ⟨rfl, rfl⟩
      · exact Keeps.ite (fun _ => Keeps.pure rfl) fun hne => absurd (by decide) hne
      · refine Keeps.ok (Keeps.leafNode fun n _ => Keeps.ite (fun _ => ?_) fun _ => ?_)
        · refine Keeps.ite (fun _ => Keeps.pure rfl) fun _ => ?_
          refine Keeps.unpinPage 0 rfl (by decide) (Keeps.getThisPage (Keeps.ok ?_))
          exact Keeps.pure rfl
        · exact Keeps.pure rfl

theorem keeps_openRight (comparator : K → K → Int) (fuel : ℕ) (key : Option K) :
    Keeps L header s (openRight comparator fuel key) fun r L' =>
      L' = r.2.1.toList.map (fun frame => (frame, HandleState.clean)) ++ L := by
  cases key with
  | none =>
      unfold openRight
      refine Keeps.bind (keeps_findLeafInternal (fun n => n.items.length - 1) fuel)
        fun r header' s' L' _ h => ?_
      obtain ⟨rc, leaf⟩ := r
      rcases h with ⟨rfl, rfl⟩ | ⟨rfl, rfl⟩
      · exact Keeps.ite (fun _ => Keeps.pure rfl) fun hne => absurd (by decide) hne
      · exact Keeps.ok (Keeps.leafNode fun n _ => Keeps.pure rfl)
  | some key =>
      unfold openRight
      refine Keeps.bind (keeps_findLeafInternal (fun n => (n.lookup comparator key).1) fuel)
        fun r header' s' L' _ h => ?_
      obtain ⟨rc, leaf⟩ := r
      rcases h with ⟨rfl, rfl⟩ | ⟨rfl, rfl⟩
      · exact Keeps.ite (fun _ => Keeps.pure rfl) fun hne => absurd (by decide) hne
      · refine Keeps.ok (Keeps.leafNode fun n _ => Keeps.ite (fun _ => Keeps.pure rfl) fun _ => ?_)
        refine Keeps.ite (fun _ => Keeps.pure rfl) fun _ => ?_
        refine Keeps.unpinPage 0 rfl (by decide) (Keeps.getThisPage (Keeps.ok ?_))
        exact Keeps.leafNode fun n _ => Keeps.pure rfl

theorem keeps_openKeys (comparator : K → K → Int) (fuel : ℕ) (leftKey rightKey : Option K)
    {scanner : BplusTreeScanner} (hright : scanner.rightFrame = none) :
    Keeps [] header s (openKeys comparator fuel leftKey rightKey scanner)
      fun r L' => L' = r.2.handles := by
  unfold openKeys
  refine Keeps.bind (keeps_openLeft comparator fuel leftKey) fun r header' s' L' _ h => ?_
  obtain ⟨rc, left, leftIndex⟩ := r
  rw [List.append_nil] at h
  subst h
  refine Keeps.ite (fun _ => Keeps.pure ?_) fun _ => ?_
  · simp [BplusTreeScanner.handles, hright]
  rcases left with _ | left
  · exact Keeps.pure (by simp [BplusTreeScanner.handles, hright])
  rcases leftIndex with _ | leftIndex
  · exact Keeps.pure (by simp [BplusTreeScanner.handles, hright])
  refine Keeps.bind (keeps_openRight comparator fuel rightKey) fun r header'' s'' L' _ h => ?_
  obtain ⟨rc, right, rightIndex⟩ := r
  subst h
  refine Keeps.ite (fun _ => Keeps.pure ?_) fun _ => ?_
  · simp [BplusTreeScanner.handles]
  rcases right with _ | right
  · exact Keeps.pure (by simp [BplusTreeScanner.handles])
  rcases rightIndex with _ | rightIndex
  · exact Keeps.pure (by simp [BplusTreeScanner.handles])
  refine Keeps.leafNode fun n _ => Keeps.ite (fun _ => Keeps.pure ?_) fun _ => Keeps.pure ?_
  · simp [BplusTreeScanner.handles]
  · simp [BplusTreeScanner.handles]

theorem keeps_nextEntry (scanner : BplusTreeScanner) :
    Keeps scanner.handles header s (nextEntry scanner : TreeM K _)
      fun r L' => L' = r.2.2.handles := by
  unfold nextEntry
  refine Keeps.ite (fun _ => Keeps.pure rfl) fun _ => ?_
  refine Keeps.assertSome fun left hleft => Keeps.assertSome fun right hright => ?_
  have hL : scanner.handles = [(right, .clean), (left, .clean)] := by
    simp [BplusTreeScanner.handles, hleft, hright]
  refine Keeps.leafNode fun n _ => Keeps.assert (Keeps.assertSome fun e _ => ?_)
  refine Keeps.ite (fun _ => Keeps.pure rfl) fun _ => Keeps.ite (fun _ => Keeps.pure rfl) fun _ => ?_
  refine Keeps.ite (fun _ => ?_) fun _ => Keeps.pure rfl
  rw [hL]
  refine Keeps.unpinPage 1 rfl (by decide) (Keeps.ite (fun _ => Keeps.pure ?_) fun _ => ?_)
  · simp [BplusTreeScanner.handles, hright]
  · refine Keeps.getThisPage (Keeps.ok (Keeps.perm (List.Perm.swap _ _ _) (Keeps.pure ?_)))
    simp [BplusTreeScanner.handles, hright]

theorem keeps_nextEntries (fuel : ℕ) (scanner : BplusTreeScanner) :
    Keeps scanner.handles header s (nextEntries fuel scanner : TreeM K _)
      fun r L' => L' = r.2.2.handles := by
  induction fuel generalizing scanner header s with
  | zero => exact Keeps.fail
  | succ fuel ih =>
      unfold nextEntries
      refine Keeps.bind (keeps_nextEntry scanner) fun r header' s' L' _ h => ?_
      obtain ⟨rc, rid, scanner'⟩ := r
      subst h
      refine Keeps.ite (fun _ => Keeps.pure rfl) fun _ => ?_
      refine Keeps.bind (ih scanner') fun r header'' s'' L' _ h => ?_
      obtain ⟨rc', rids, scanner''⟩ := r
      exact Keeps.pure h

theorem keeps_closeScanner (scanner : BplusTreeScanner) :
    Keeps scanner.handles header s (closeScanner scanner : TreeM K _) fun _ L' => L' = [] := by
  unfold closeScanner BplusTreeScanner.handles
  rcases scanner.leftFrame with _ | left
  · rcases scanner.rightFrame with _ | right
    · exact Keeps.pure rfl
    · exact Keeps.unpinPage 0 rfl (by decide) (Keeps.pure rfl)
  · rcases scanner.rightFrame with _ | right
    · exact Keeps.unpinPage 0 rfl (by decide) (Keeps.pure rfl)
    · exact Keeps.unpinPage 1 rfl (by decide) (Keeps.unpinPage 0 rfl (by decide) (Keeps.pure rfl))

theorem keeps_openInts {A : Type} {s : FlatPool (IndexPage (IndexKey A))}
    (attrComparator : A → A → Int) (fuel : ℕ) (left right : Option (A × Bool)) :
    Keeps [] header s (openInts attrComparator fuel left right .closed)
      fun r L' => L' = r.2.handles := by
  unfold openInts
  refine Keeps.ite (fun _ => Keeps.pure rfl) fun _ => ?_
  refine Keeps.ite (fun _ => Keeps.pure rfl) fun _ => ?_
  exact keeps_openKeys _ fuel _ _ rfl

/-- A whole scan changes no page and lets go what it holds. -/
theorem keeps_scanInts {A : Type} {s : FlatPool (IndexPage (IndexKey A))}
    (attrComparator : A → A → Int) (fuel : ℕ) (left right : Option (A × Bool)) :
    Keeps [] header s (scanInts attrComparator fuel left right) fun _ L' => L' = [] := by
  unfold scanInts
  refine Keeps.bind (keeps_openInts attrComparator fuel left right) fun r header' s' L' _ h => ?_
  obtain ⟨rc, scanner⟩ := r
  subst h
  refine Keeps.ite (fun _ => ?_) fun _ => ?_
  · exact Keeps.bind (keeps_closeScanner scanner) fun _ _ _ L' _ h => Keeps.pure h
  · refine Keeps.bind (keeps_nextEntries fuel scanner) fun r header'' s'' L' _ h => ?_
    obtain ⟨rcEnd, rids, scanner'⟩ := r
    subst h
    exact Keeps.bind (keeps_closeScanner scanner') fun _ _ _ L' _ h => Keeps.pure h

end scanning

end Miniob.Storage.Index
