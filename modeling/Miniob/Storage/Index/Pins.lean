import Miniob.Storage.Index.CharsScanner
import Miniob.Storage.Index.Discipline
import Miniob.Storage.Index.Runs

/-!
# Pins of the tree handler are balanced

Each operation lets go of the frames that it has pinned, on every way through it. The dirty marks
play no role here, so that this also holds of the splits and merges that lose one.

* `Pins`: the books say which pages are pinned, and no page was used without a pin.
* `Keeps.pins`: what keeps the discipline of the handles is balanced.
* `pins_insertEntryIntoLeafNode`, `pins_redistribute`, `pins_coalesce`: who lets go of what.
* `pins_coalesceOrRedistribute`: refilling a node, by induction on the distance to the root. The
  node that is disposed of is not the parent, which is still pinned.
* `pins_balanced`: after any run, every operation leaves the pins as they were.
-/

namespace Miniob.Storage.Index

open Miniob.Lib
open Miniob.Storage.BufferPool (PoolCall FlatPool flat tracked Handles HandleState Marks)

variable {K α β : Type} {L : List Int} {header : IndexFileHeader} {s : FlatPool (IndexPage K)}
  {p q : Int}

/-- The pinned pages, once for each pin. Pages have only been changed and unpinned while they were
pinned, and disposed of while they were not. -/
structure Pins (L : List Int) (t : Marks) : Prop where
  /-- The pins. -/
  pinned : t.pinned.Perm L
  /-- Every call so far was made with the right pins. -/
  sound : t.sound = true

/-! ## Calls on the pool -/

section calls

variable {t : Marks} {Q : β → List Int → Prop} {i : ℕ}

theorem Pins.mem_pinned (h : Pins L t) (hi : L[i]? = some p) : p ∈ t.pinned := by
  rw [h.pinned.mem_iff]
  exact List.mem_of_getElem? hi

theorem unpinPage_pinned (t : Marks) (p : Int) : (t.unpinPage p).pinned = t.pinned.erase p := by
  unfold Marks.unpinPage
  split <;> rfl

theorem unpinPage_sound (t : Marks) (p : Int) :
    (t.unpinPage p).sound = (t.sound && decide (p ∈ t.pinned)) := by
  unfold Marks.unpinPage
  split
  case isTrue h => simp [List.mem_of_mem_erase h]
  case isFalse h => rfl

theorem Pins.unpinPage (h : Pins L t) (hi : L[i]? = some p) :
    Pins (L.eraseIdx i) (t.unpinPage p) := by
  obtain ⟨hlt, he⟩ := List.getElem?_eq_some_iff.mp hi
  have hperm : L.Perm (p :: L.eraseIdx i) :=
    he ▸ (List.perm_cons_erase (List.getElem_mem hlt)).trans ((List.erase_getElem hlt).cons _)
  constructor
  · rw [unpinPage_pinned]
    simpa using (h.pinned.trans hperm).erase p
  · rw [unpinPage_sound, h.sound, Bool.true_and, decide_eq_true_iff]
    exact h.mem_pinned hi

theorem pins_getThisPage {f : RC → TreeM K β} (hf : Follows Pins (p :: L) header s (f .success) Q) :
    Follows Pins L header s (getThisPage p >>= f) Q :=
  Follows.step (fun t => t.pin p) (fun _ => rfl) (fun _ h => ⟨h.pinned.cons p, h.sound⟩) hf

theorem pins_setPage (i : ℕ) {n : IndexPage K} {f : Unit → TreeM K β} (hi : L[i]? = some p)
    (hf : Follows Pins L header (s.set p n) (f ()) Q) :
    Follows Pins L header s (setPage p n >>= f) Q :=
  Follows.step (fun t => t.setData p) (fun _ => rfl) (fun t h =>
    ⟨h.pinned, by simp [Marks.setData, h.sound, h.mem_pinned hi]⟩) hf

theorem pins_markDirty (i : ℕ) {f : Unit → TreeM K β} (hi : L[i]? = some p)
    (hf : Follows Pins L header s (f ()) Q) : Follows Pins L header s (markDirty p >>= f) Q :=
  Follows.step (fun t => t.markDirty p) (fun _ => rfl) (fun t h =>
    ⟨h.pinned, by simp [Marks.markDirty, h.sound, h.mem_pinned hi]⟩) hf

theorem pins_unpinPage (i : ℕ) {f : RC → TreeM K β} (hi : L[i]? = some p)
    (hf : Follows Pins (L.eraseIdx i) header s (f .success) Q) :
    Follows Pins L header s (unpinPage p >>= f) Q :=
  Follows.step (fun t => t.unpinPage p) (fun _ => rfl) (fun _ h => h.unpinPage hi) hf

theorem pins_disposePage {f : RC → TreeM K β} (hp : p ∉ L)
    (hf : Follows Pins L header (s.dispose p) (f .success) Q) :
    Follows Pins L header s (disposePage p >>= f) Q :=
  Follows.step (fun t => t.disposePage p) (fun _ => rfl) (fun t h =>
    ⟨h.pinned, by simp [Marks.disposePage, h.sound, h.pinned.mem_iff, hp]⟩) hf

theorem pins_modifyLeaf (i : ℕ) {g : LeafIndexNode K → LeafIndexNode K} {f : Unit → TreeM K β}
    (hi : L[i]? = some p) (hf : ∀ n, s.page p = .leaf n →
      Follows Pins L header (s.set p (.leaf (g n))) (f ()) Q) :
    Follows Pins L header s (modifyLeaf p g >>= f) Q := by
  unfold Index.modifyLeaf
  rw [bind_assoc]
  exact Follows.leafNode fun n hn => pins_setPage i hi (hf n hn)

theorem pins_modifyInternal (i : ℕ) {g : InternalIndexNode K → InternalIndexNode K}
    {f : Unit → TreeM K β} (hi : L[i]? = some p) (hf : ∀ n, s.page p = .internal n →
      Follows Pins L header (s.set p (.internal (g n))) (f ()) Q) :
    Follows Pins L header s (modifyInternal p g >>= f) Q := by
  unfold Index.modifyInternal
  rw [bind_assoc]
  exact Follows.internalNode fun n hn => pins_setPage i hi (hf n hn)

theorem pins_setParentPageNum (i : ℕ) {f : Unit → TreeM K β} (hi : L[i]? = some p)
    (hf : Follows Pins L header (s.set p ((s.page p).setParentPageNum q)) (f ()) Q) :
    Follows Pins L header s (setParentPageNum p q >>= f) Q := by
  unfold Index.setParentPageNum
  rw [bind_assoc]
  exact Follows.page (pins_setPage i hi hf)

end calls

/-! ## Handles -/

/-- Two runs whose books differ in the marks only. -/
theorem run_tracked_pins (x : TreeM K α) {t u : Marks} (hpinned : t.pinned.Perm u.pinned)
    (hsound : t.sound = u.sound) {a : α} {header' : IndexFileHeader} {s' : FlatPool (IndexPage K)}
    {t' : Marks} (hrun : exec tracked x header (s, t) = some ((a, header'), (s', t'))) :
    ∃ u', exec tracked x header (s, u) = some ((a, header'), (s', u')) ∧
      t'.pinned.Perm u'.pinned ∧ t'.sound = u'.sound := by
  let R : FlatPool (IndexPage K) × Marks → FlatPool (IndexPage K) × Marks → Prop := fun st su =>
    st.1 = su.1 ∧ st.2.pinned.Perm su.2.pinned ∧ st.2.sound = su.2.sound
  have hstep : ∀ (δ : Type) (c : PoolCall (IndexPage K) δ) (st su : FlatPool (IndexPage K) × Marks),
      R st su → (tracked δ c st).1 = (tracked δ c su).1 ∧
        R (tracked δ c st).2 (tracked δ c su).2 := by
    rintro δ c ⟨s, t⟩ ⟨_, u⟩ ⟨rfl, hpinned, hsound⟩
    dsimp only at hpinned hsound
    refine ⟨rfl, rfl, ?_⟩
    cases c <;> simp only [tracked, Marks.step]
    case getThisPage p => exact ⟨hpinned.cons p, hsound⟩
    case data p => exact ⟨hpinned, hsound⟩
    case setData p n =>
      exact ⟨hpinned, by simp only [Marks.setData, hsound, hpinned.mem_iff]⟩
    case markDirty p =>
      exact ⟨hpinned, by simp only [Marks.markDirty, hsound, hpinned.mem_iff]⟩
    case unpinPage p =>
      rw [unpinPage_pinned, unpinPage_pinned, unpinPage_sound, unpinPage_sound]
      exact ⟨hpinned.erase p, by simp only [hsound, hpinned.mem_iff]⟩
    case allocatePage => exact ⟨hpinned.cons _, hsound⟩
    case disposePage p =>
      exact ⟨hpinned, by simp only [Marks.disposePage, hsound, hpinned.mem_iff]⟩
    case flushAllPages => exact ⟨hpinned, hsound⟩
  have hR : R (s, t) (s, u) := ⟨rfl, hpinned, hsound⟩
  rcases Prog.run_rel (R := R) hstep (x.run header) hR with
    ⟨hnone, -⟩ | ⟨b, st, su, hst, hsu, heq, hp, hs⟩
  · exact absurd (hrun.symm.trans hnone) (by simp)
  · have := hrun.symm.trans hst
    rw [Option.some.injEq, Prod.mk.injEq] at this
    obtain ⟨rfl, rfl⟩ := this
    obtain ⟨s₁, u'⟩ := su
    dsimp only at heq
    subst heq
    exact ⟨u', hsu, hp, hs⟩

/-- What keeps the discipline of the handles is balanced. -/
theorem Keeps.pins {H : Handles} {x : TreeM K α} {Q : α → Handles → Prop}
    (hx : Keeps H header s x Q) :
    Follows Pins (H.map Prod.fst) header s x fun a L' => ∃ H', L' = H'.map Prod.fst ∧ Q a H' := by
  intro t ht a header' s' t' hrun
  -- books with these pins in which nothing is changed
  let u : Marks := ⟨H.map Prod.fst, H.map Prod.fst, [], [], true⟩
  have hu : u.Holds H := by
    refine ⟨List.Perm.refl _, by simp [u], ?_, rfl, rfl⟩
    intro q hq
    exact List.mem_map_of_mem hq
  obtain ⟨u', hrun', hpinned, hsound⟩ := run_tracked_pins x (u := u) ht.pinned ht.sound hrun
  obtain ⟨H', hH', hQ⟩ := hx u hu a header' s' u' hrun'
  refine ⟨H'.map Prod.fst, ⟨hpinned.trans hH'.pinned, hsound.trans hH'.clean.2⟩, H', rfl, hQ⟩

/-! ## Inserting -/

section inserting

theorem pins_updateRootPageNum :
    Follows Pins L header s (updateRootPageNum : TreeM K RC) fun rc L' => rc = .success ∧ L' = L := by
  have hmap : (L.map fun p => (p, HandleState.clean)).map Prod.fst = L := by
    simp [Function.comp_def]
  have hkeeps : Keeps (L.map fun p => (p, HandleState.clean)) header s
    (updateRootPageNum : TreeM K RC) _ := keeps_updateRootPageNum
  have hpins := hkeeps.pins
  rw [hmap] at hpins
  refine hpins.mono fun rc L' h => ?_
  obtain ⟨H', rfl, hrc, rfl⟩ := h
  exact ⟨hrc, hmap⟩

variable [Inhabited K]

/-- Both halves of a leaf are handed over to the parent; a duplicate key leaves the pin with the
caller. -/
theorem pins_insertEntryIntoLeafNode (comparator : K → K → Int) (fuel : ℕ) (key : K) (rid : RID) :
    Follows Pins [p] header s (insertEntryIntoLeafNode comparator fuel p key rid)
      fun rc L' => rc = .recordDuplicateKey ∧ L' = [p] ∨ rc = .success ∧ L' = [] := by
  unfold insertEntryIntoLeafNode
  refine Follows.leafNode fun n _ => ?_
  obtain ⟨position, found, hlookup⟩ : ∃ i b, n.lookup comparator key = (i, b) := ⟨_, _, rfl⟩
  rw [hlookup]
  refine Follows.ite (fun _ => Follows.pure (Or.inl ⟨rfl, rfl⟩)) fun _ => Follows.get ?_
  refine Follows.ite (fun _ => ?_) fun _ => ?_
  · refine pins_modifyLeaf 0 rfl fun _ _ => pins_markDirty 0 rfl ?_
    exact pins_unpinPage 0 rfl (Follows.pure (Or.inr ⟨rfl, rfl⟩))
  · have hsplit : Keeps [(p, .clean)] header s (split .leaf p) _ := keeps_split .leaf
    refine Follows.bind hsplit.pins fun r header' s' L' _ h => ?_
    obtain ⟨rc, r⟩ := r
    obtain ⟨_, rfl, hrc, rfl⟩ := h
    obtain rfl : rc = .success := hrc
    have hparent : ∀ {header : IndexFileHeader} {s : FlatPool (IndexPage K)} (k : K),
        Follows Pins [r, p] header s (insertEntryIntoParent comparator fuel p r k)
          fun rc L' => rc = .recordDuplicateKey ∧ L' = [p] ∨ rc = .success ∧ L' = [] := by
      intro header s k
      refine (keeps_insertEntryIntoParent comparator fuel k).pins.mono fun rc L' h => ?_
      obtain ⟨H', rfl, hrc, rfl⟩ := h
      exact Or.inr ⟨hrc, rfl⟩
    refine Follows.ok (Follows.leafNode fun m _ => ?_)
    refine pins_modifyLeaf 0 rfl fun _ _ => pins_modifyLeaf 0 rfl fun _ _ => ?_
    refine pins_modifyLeaf 0 rfl fun _ _ => pins_modifyLeaf 1 rfl fun _ _ => ?_
    -- the new entry goes into one of the halves
    have hrest : ∀ {header : IndexFileHeader} {s : FlatPool (IndexPage K)},
        Follows Pins [r, p] header s (do
          let leaf ← leafNode p
          if position < leaf.items.length then
            modifyLeaf p fun n => n.insert position key rid
          else
            modifyLeaf r fun n => n.insert (position - leaf.items.length) key rid
          insertEntryIntoParent comparator fuel p r (← keyAt r 0))
          fun rc L' => rc = .recordDuplicateKey ∧ L' = [p] ∨ rc = .success ∧ L' = [] := by
      intro header s
      refine Follows.leafNode fun m _ => Follows.ite (fun _ => ?_) fun _ => ?_
      · exact pins_modifyLeaf 1 rfl fun _ _ => Follows.keyAt fun k _ => hparent k
      · exact pins_modifyLeaf 0 rfl fun _ _ => Follows.keyAt fun k _ => hparent k
    refine Follows.leafNode fun o _ => Follows.ite (fun _ => ?_) fun _ => hrest
    refine pins_getThisPage (Follows.ok (pins_modifyLeaf 0 rfl fun _ _ => ?_))
    exact pins_unpinPage 0 rfl hrest

theorem pins_insertEntry (comparator : K → K → Int) (fuel : ℕ) (key : K) (rid : RID) :
    Follows Pins [] header s (insertEntry comparator fuel key rid) fun _ L' => L' = [] := by
  unfold insertEntry isEmpty
  rw [bind_assoc]
  refine Follows.get ?_
  rw [pure_bind]
  refine Follows.ite (fun _ => ?_) fun _ => ?_
  · refine (keeps_createNewTree key rid).pins.mono fun rc L' h => ?_
    obtain ⟨H', rfl, rfl⟩ := h
    rfl
  · have hfind : Keeps [] header s _ _ :=
      keeps_findLeafInternal (fun n => (n.lookup comparator key).1) fuel
    refine Follows.bind hfind.pins fun r header' s' L' _ h => ?_
    obtain ⟨rc, leaf⟩ := r
    obtain ⟨_, rfl, ⟨hrc, rfl⟩ | ⟨hrc, rfl⟩⟩ := h
    · obtain rfl : rc = .empty := hrc
      exact Follows.ite (fun _ => Follows.pure rfl) fun hne => absurd (by decide) hne
    · obtain rfl : rc = .success := hrc
      refine Follows.ok (Follows.bind (pins_insertEntryIntoLeafNode comparator fuel key rid)
        fun rc header'' s'' L' _ h => ?_)
      rcases h with ⟨rfl, rfl⟩ | ⟨rfl, rfl⟩
      · refine Follows.ite (fun _ => ?_) fun hne => absurd (by decide) hne
        exact pins_unpinPage 0 rfl (Follows.pure rfl)
      · exact Follows.ok (Follows.pure rfl)

end inserting

/-! ## Moving items -/

section moving

variable {i j : ℕ}

/-- The children are fetched and let go one by one. -/
theorem pins_copyFrom (hi : L[i]? = some p) (items : List (K × Int)) :
    Follows Pins L header s (copyFrom p items) fun rc L' => rc = .success ∧ L' = L := by
  have hmap : (L.map fun p => (p, HandleState.clean)).map Prod.fst = L := by
    simp [Function.comp_def]
  have hget : (L.map fun p => (p, HandleState.clean))[i]? = some (p, .clean) := by simp [hi]
  have hkeeps : Keeps _ header s (copyFrom p items) _ := keeps_copyFrom i hget items
  have hpins := hkeeps.pins
  rw [hmap] at hpins
  refine hpins.mono fun rc L' h => ?_
  obtain ⟨H', rfl, hrc, rfl⟩ := h
  exact ⟨hrc, by rw [BufferPool.map_fst_set hget, hmap]⟩

theorem pins_preappend (hi : L[i]? = some p) (item : K × Int) :
    Follows Pins L header s (preappend p item) fun rc L' => rc = .success ∧ L' = L := by
  unfold preappend
  refine pins_getThisPage (Follows.ok (pins_setParentPageNum 0 rfl (pins_markDirty 0 rfl ?_)))
  refine pins_unpinPage 0 rfl ?_
  exact pins_modifyInternal i hi fun _ _ => Follows.pure ⟨rfl, rfl⟩

/-- Moving items between two pinned nodes keeps them pinned. -/
theorem pins_moveFirstToEnd (kind : NodeKind) (hi : L[i]? = some q) (hj : L[j]? = some p) :
    Follows Pins L header s (moveFirstToEnd (K := K) kind q p)
      fun rc L' => rc = .success ∧ L' = L := by
  cases kind with
  | leaf =>
      unfold moveFirstToEnd
      refine Follows.leafNode fun n _ => Follows.assertSome fun e _ => ?_
      refine pins_modifyLeaf j hj fun _ _ => pins_modifyLeaf i hi fun _ _ => ?_
      exact Follows.pure ⟨rfl, rfl⟩
  | internal =>
      unfold moveFirstToEnd
      refine Follows.internalNode fun n _ => Follows.assertSome fun e _ => ?_
      refine Follows.bind (pins_copyFrom hj [e]) fun rc header' s' L' _ h => ?_
      obtain ⟨rfl, rfl⟩ := h
      exact Follows.ok (pins_modifyInternal i hi fun _ _ => Follows.pure ⟨rfl, rfl⟩)

theorem pins_moveLastToFront (kind : NodeKind) (hi : L[i]? = some q) (hj : L[j]? = some p) :
    Follows Pins L header s (moveLastToFront (K := K) kind q p)
      fun rc L' => rc = .success ∧ L' = L := by
  cases kind with
  | leaf =>
      unfold moveLastToFront
      refine Follows.leafNode fun n _ => Follows.assertSome fun e _ => ?_
      refine pins_modifyLeaf j hj fun _ _ => pins_modifyLeaf i hi fun _ _ => ?_
      exact Follows.pure ⟨rfl, rfl⟩
  | internal =>
      unfold moveLastToFront
      refine Follows.internalNode fun n _ => Follows.assertSome fun e _ => ?_
      refine Follows.bind (pins_preappend hj e) fun rc header' s' L' _ h => ?_
      obtain ⟨rfl, rfl⟩ := h
      exact Follows.ok (pins_modifyInternal i hi fun _ _ => Follows.pure ⟨rfl, rfl⟩)

/-- The leaf after a merged one is fetched and let go again. -/
theorem pins_moveTo (kind : NodeKind) (hi : L[i]? = some q) (hj : L[j]? = some p) :
    Follows Pins L header s (moveTo (K := K) kind q p) fun rc L' => rc = .success ∧ L' = L := by
  cases kind with
  | leaf =>
      unfold moveTo
      refine Follows.leafNode fun n _ => pins_modifyLeaf j hj fun _ _ => ?_
      refine pins_modifyLeaf i hi fun _ _ => pins_modifyLeaf j hj fun _ _ => ?_
      refine Follows.ite (fun _ => ?_) fun _ => Follows.pure ⟨rfl, rfl⟩
      refine pins_getThisPage (Follows.ok (pins_modifyLeaf 0 rfl fun _ _ => ?_))
      refine pins_markDirty 0 rfl (pins_unpinPage 0 rfl ?_)
      exact Follows.pure ⟨rfl, rfl⟩
  | internal =>
      unfold moveTo
      refine Follows.internalNode fun n _ => ?_
      refine Follows.bind (pins_copyFrom hj n.items) fun rc header' s' L' _ h => ?_
      obtain ⟨rfl, rfl⟩ := h
      exact Follows.ok (pins_modifyInternal i hi fun _ _ => Follows.pure ⟨rfl, rfl⟩)

end moving

/-! ## Deleting -/

section deleting

variable {P : Int}

/-- The three nodes are let go at the end. -/
theorem pins_redistribute (kind : NodeKind) (index : ℕ) :
    Follows Pins [q, P, p] header s (redistribute (K := K) kind q p P index)
      fun _ L' => L' = [] := by
  have hend : ∀ {header : IndexFileHeader} {s : FlatPool (IndexPage K)},
      Follows Pins [q, P, p] header s (do
          markDirty q
          markDirty p
          markDirty P
          let _ ← unpinPage P
          let _ ← unpinPage q
          let _ ← unpinPage p
          return RC.success) fun _ L' => L' = [] := by
    intro header s
    refine pins_markDirty 0 rfl (pins_markDirty 2 rfl (pins_markDirty 1 rfl ?_))
    refine pins_unpinPage 1 rfl (pins_unpinPage 0 rfl ?_)
    exact pins_unpinPage 0 rfl (Follows.pure rfl)
  unfold redistribute
  refine Follows.ite (fun _ => ?_) fun _ => ?_
  · refine Follows.bind (pins_moveFirstToEnd (i := 0) (j := 2) kind rfl rfl) fun _ _ _ _ _ h => ?_
    obtain ⟨-, rfl⟩ := h
    refine Follows.keyAt fun k _ => Follows.internalNode fun N _ => Follows.assert ?_
    exact pins_modifyInternal 1 rfl fun _ _ => hend
  · refine Follows.bind (pins_moveLastToFront (i := 0) (j := 2) kind rfl rfl) fun _ _ _ _ _ h => ?_
    obtain ⟨-, rfl⟩ := h
    refine Follows.keyAt fun k _ => Follows.internalNode fun N _ => Follows.assert ?_
    exact pins_modifyInternal 1 rfl fun _ _ => hend

/-- The old root is disposed of when nobody holds it any more. -/
theorem pins_adjustRoot :
    Follows Pins [p] header s (adjustRoot (K := K) p) fun _ L' => L' = [] := by
  have hend : ∀ {header : IndexFileHeader} {s : FlatPool (IndexPage K)},
      Follows Pins [p] header s (do
          let _ ← updateRootPageNum
          let _ ← unpinPage p
          let _ ← disposePage p
          return RC.success) fun _ L' => L' = [] := by
    intro header s
    refine Follows.bind pins_updateRootPageNum fun rc header' s' L' _ h => ?_
    obtain ⟨-, rfl⟩ := h
    exact pins_unpinPage 0 rfl (pins_disposePage List.not_mem_nil (Follows.pure rfl))
  unfold adjustRoot
  refine Follows.page (Follows.ite (fun _ => ?_) fun _ => ?_)
  · exact pins_markDirty 0 rfl (pins_unpinPage 0 rfl (Follows.pure rfl))
  · split
    case isTrue _ => exact Follows.modify hend
    case isFalse _ =>
      refine Follows.internalNode fun n _ => Follows.valueAt fun e _ => ?_
      refine pins_getThisPage (Follows.ok (pins_setParentPageNum 0 rfl ?_))
      exact pins_unpinPage 0 rfl (Follows.modify hend)

theorem ite_bind_tree (c : Prop) [Decidable c] (x y : TreeM K α) (f : α → TreeM K β) :
    (if c then x else y) >>= f = if c then x >>= f else y >>= f := by
  split <;> rfl

/-- Merging goes on with the parent. -/
theorem coalesce_eq_bind (again : Int → TreeM K RC) (kind : NodeKind) (index : ℕ) :
    coalesce again kind q p P index =
      coalesce (fun _ => pure .success) kind q p P index >>= fun rc =>
        if rc = .success then again P else pure rc := by
  unfold coalesce
  -- which of the two is the left one does not matter
  generalize (if index = 0 then (p, q, index + 1) else (q, p, index)) = sides
  obtain ⟨l, r, i⟩ := sides
  simp only [bind_assoc, ite_bind_tree, pure_bind, if_true]
  refine bind_congr fun N => bind_congr fun _ => bind_congr fun _ => bind_congr fun rc => ?_
  by_cases hrc : rc = .success
  · simp only [hrc, ne_eq, not_true_eq_false, if_false]
    refine bind_congr fun n => ?_
    split
    · refine bind_congr fun R => bind_congr fun _ => ?_
      split
      · refine bind_congr fun rc' => ?_
        by_cases hrc' : rc' = .success <;> simp [hrc']
      · rfl
    · rfl
  · simp [hrc]

/-- The two nodes are let go, the one that is empty now is disposed of, and the parent stays
pinned. -/
theorem pins_coalesce (kind : NodeKind) (index : ℕ) (hq : q ≠ P) (hp : p ≠ P) :
    Follows Pins [q, P, p] header s (coalesce (K := K) (fun _ => pure .success) kind q p P index)
      fun rc L' => rc = .success ∧ L' = [P] := by
  have hsides : ∀ {l r : Int} {i j k : ℕ}, [q, P, p][i]? = some l → [q, P, p][j]? = some r →
      (∀ {header : IndexFileHeader} {s : FlatPool (IndexPage K)}, Follows Pins [q, P, p] header s
        (do
          let _ ← unpinPage l
          let _ ← unpinPage r
          let _ ← disposePage r
          return RC.success) fun rc L' => rc = .success ∧ L' = [P]) →
      (if index = 0 then (p, q, index + 1) else (q, p, index)) = (l, r, k) →
      Follows Pins [q, P, p] header s (coalesce (K := K) (fun _ => pure .success) kind q p P index)
        fun rc L' => rc = .success ∧ L' = [P] := by
    intro l r i j k hl hr hend heq
    unfold coalesce
    rw [heq]
    refine Follows.internalNode fun N _ => Follows.assert (pins_modifyInternal 1 rfl fun _ _ => ?_)
    refine Follows.bind (pins_moveTo kind hr hl) fun rc header' s' L' _ h => ?_
    obtain ⟨rfl, rfl⟩ := h
    refine Follows.ok (Follows.page (Follows.ite (fun _ => ?_) fun _ => hend))
    refine Follows.leafNode fun R _ => pins_modifyLeaf i hl fun _ _ => ?_
    refine Follows.ite (fun _ => ?_) fun _ => hend
    refine pins_getThisPage (Follows.ok (pins_modifyLeaf 0 rfl fun _ _ => ?_))
    exact pins_unpinPage 0 rfl hend
  by_cases h0 : index = 0
  · refine hsides (i := 2) (j := 0) rfl rfl ?_ (if_pos h0)
    refine pins_unpinPage 2 rfl (pins_unpinPage 0 rfl ?_)
    exact pins_disposePage (by simpa using hq) (Follows.pure ⟨rfl, rfl⟩)
  · refine hsides (i := 0) (j := 2) rfl rfl ?_ (if_neg h0)
    refine pins_unpinPage 0 rfl (pins_unpinPage 1 rfl ?_)
    exact pins_disposePage (by simpa using hp) (Follows.pure ⟨rfl, rfl⟩)

variable {B : Type} [LinearOrder B] [BoundedOrder B] {comparator : K → K → Int}
  {InTree : K → Prop} {pos : K → B} {g : Ghost B}

/-- Refilling a node lets go of it. By induction on the fuel, which is above the distance to the
root; the invariant tells the parent from the nodes below it. -/
theorem pins_coalesceOrRedistribute (ho : KeyOrder comparator InTree pos) (fuel : ℕ)
    (h : IndexInv InTree pos header s g none (some p)) (hp : p ∈ g.nodes) :
    Follows Pins [p] header s (coalesceOrRedistribute comparator fuel (levelKind (g.level p)) p)
      fun _ L' => L' = [] := by
  induction fuel generalizing s g p with
  | zero => exact Follows.fail
  | succ fuel ih =>
      unfold coalesceOrRedistribute
      refine Follows.page (Follows.get (Follows.ite (fun _ => ?_) fun hless => ?_))
      · exact pins_unpinPage 0 rfl (Follows.pure rfl)
      refine Follows.ite (fun _ => ?_) fun hparent => ?_
      · refine Follows.ite (fun _ => ?_) fun _ => ?_
        · exact pins_unpinPage 0 rfl (Follows.pure rfl)
        · exact Follows.bind pins_adjustRoot fun _ _ _ _ _ hL => Follows.pure hL
      have hroot : p ≠ header.rootPage := by
        rintro rfl
        exact hparent h.tree.root_parent
      obtain ⟨key, hlast, hkey, hlo, hhi⟩ := h.last_key hp hroot
      obtain ⟨P, N, l₁, kp, l₂, hP, hPmem, -, hN, hitems, hlevel, hlookup⟩ :=
        h.exists_parent ho hp hroot hkey hlo hhi
      rw [hP]
      refine pins_getThisPage (Follows.ok (Follows.internalNode fun N' hN' => ?_))
      obtain rfl : N = N' := IndexPage.internal.inj (hN.symm.trans hN')
      refine Follows.keyAt fun key' hkey' => ?_
      obtain rfl : key = key' := Option.some.inj (hlast.symm.trans hkey')
      obtain ⟨index, position, heq⟩ : ∃ i j, N.lookup comparator key = (i, j) := ⟨_, _, rfl⟩
      rw [heq] at hlookup ⊢
      obtain rfl : index = l₁.length := hlookup
      refine Follows.valueAt fun e _ => ?_
      have hrest : ∀ {q l r : Int} {kl kr : K} {m₁ m₂ : List (K × Int)},
          Neighbours s g P N m₁ kl l kr r m₂ → Sides p q l₁.length l r (m₁.length + 1) →
          Follows Pins [P, p] header s (do
            let rc ← getThisPage q
            if rc ≠ .success then
              let _ ← unpinPage p
              let _ ← unpinPage P
              return rc
            let neighbor ← page q
            if (s.page p).size + neighbor.size > maxSize (← get) (levelKind (g.level p)) then
              redistribute (levelKind (g.level p)) q p P l₁.length
            else
              coalesce (coalesceOrRedistribute comparator fuel .internal)
                (levelKind (g.level p)) q p
                P l₁.length) fun _ L' => L' = [] := by
        intro q l r kl kr m₁ m₂ hnb hside
        obtain ⟨hl, hr, -⟩ := h.neighbours_ne hnb
        have hne : q ≠ P ∧ p ≠ P := by
          rcases hside with ⟨-, rfl, rfl, -⟩ | ⟨-, rfl, rfl, -⟩
          · exact ⟨hr, hl⟩
          · exact ⟨hl, hr⟩
        refine pins_getThisPage (Follows.ok (Follows.page (Follows.get (Follows.ite ?_ ?_))))
        · exact fun _ => pins_redistribute _ _
        · intro hsum
          rw [coalesce_eq_bind]
          refine Follows.bind (pins_coalesce _ _ hne.1 hne.2) fun rc header' s' L' hexec hL => ?_
          obtain ⟨rfl, rfl⟩ := hL
          -- the parent is the short node now
          obtain ⟨s₁, g₁, hrun, hinv, -, hmem, hg₁⟩ :=
            coalesce_ok (fun _ => pure .success) l₁.length h
            hside hnb (by rw [IndexPage.size_eq, IndexPage.size_eq] at hsum; exact not_lt.mp hsum)
          rw [hrun, exec_pure, Option.some.injEq, Prod.mk.injEq, Prod.mk.injEq] at hexec
          obtain ⟨⟨-, rfl⟩, rfl⟩ := hexec
          have hnext := ih hinv hmem
          rw [hg₁, ← hlevel, levelKind, if_neg (Nat.succ_ne_zero _)] at hnext
          exact Follows.ite (fun _ => hnext) fun hfail => absurd rfl hfail
      rcases h.exists_neighbour hPmem hN hitems with ⟨kq, q, m₂, rfl, rfl⟩ | ⟨m₁, kq, q, rfl⟩
      · -- the neighbour is at the right
        rw [if_pos (by simp)]
        refine Follows.valueAt fun e he => ?_
        obtain rfl : (kq, q) = e := by simpa [hitems] using he
        refine hrest (r := q) ⟨hPmem, hN, hitems⟩ (Or.inl ⟨rfl, rfl, rfl, rfl⟩)
      · -- the neighbour is at the left
        rw [if_neg (by simp)]
        refine Follows.valueAt fun e he => ?_
        obtain rfl : (kq, q) = e := by simpa [hitems] using he
        have hnb : Neighbours s g P N m₁ kq q kp p l₂ := ⟨hPmem, hN, by simp [hitems]⟩
        exact hrest hnb (Or.inr ⟨by simp, rfl, rfl, by simp⟩)

theorem pins_deleteEntry (ho : KeyOrder comparator InTree pos) {height fuel : ℕ}
    {C : Set (K × RID)} {key : K} (h : Represents InTree pos header s height C)
    (hkey : InTree key) (hfuel : height ≤ fuel) :
    Follows Pins [] header s (deleteEntry comparator fuel key) fun _ L' => L' = [] := by
  have hfind : Keeps [] header s _ _ :=
    keeps_findLeafInternal (fun n => (n.lookup comparator key).1) fuel
  unfold deleteEntry
  refine Follows.bind hfind.pins fun r header' s' L' hexec hL => ?_
  obtain ⟨rc, q⟩ := r
  obtain ⟨_, rfl, ⟨hrc, rfl⟩ | ⟨hrc, rfl⟩⟩ := hL
  · obtain rfl : rc = .empty := hrc
    exact Follows.ite (fun _ => Follows.pure rfl) fun hne => absurd (by decide) hne
  obtain rfl : rc = .success := hrc
  refine Follows.ok ?_
  rcases h with ⟨hempty, -⟩ | ⟨g, hinv, -, hlevel⟩
  · unfold findLeaf at hexec
    rw [findLeafInternal_empty hempty.root] at hexec
    simp at hexec
  -- the search ends at a leaf of the tree
  obtain ⟨q', hq, hl, -, hexec'⟩ := findLeaf_ok ho hinv.tree.toNodeInv fuel (by omega) hkey
  rw [hexec', Option.some.injEq, Prod.mk.injEq, Prod.mk.injEq, Prod.mk.injEq] at hexec
  obtain ⟨⟨⟨-, rfl⟩, rfl⟩, rfl⟩ := hexec
  obtain ⟨n, hn, hE, -, -⟩ := hinv.exists_leaf hq hl
  unfold deleteEntryInternal
  refine Follows.leafNode fun n' hn' => ?_
  obtain rfl : n = n' := IndexPage.leaf.inj (hn.symm.trans hn')
  have hin : ∀ e ∈ n.items, InTree e.1 := fun e he => (hinv.tree.entry q' hq e (hE ▸ he)).1
  have hsorted := hinv.tree.sorted q' hq
  rw [hE] at hsorted
  rcases leaf_lookup ho hkey n hin hsorted with ⟨l, r, -, -, -, hlookup⟩ |
    ⟨l, a, r, hitems, -, -, -, hlookup⟩
  · rw [hlookup]
    exact pins_unpinPage 0 rfl (Follows.pure rfl)
  · rw [hlookup]
    refine Follows.assert (pins_modifyLeaf 0 rfl fun n' hn' => pins_markDirty 0 rfl ?_)
    obtain rfl : n = n' := IndexPage.leaf.inj (hn.symm.trans hn')
    have hremove : n.remove l.length = { n with items := l ++ r } := by
      rw [LeafIndexNode.remove, hitems, List.eraseIdx_append_of_length_le le_rfl]
      simp
    obtain ⟨hinv', -⟩ := hinv.leaf_remove hq hl hn hitems
    rw [hremove]
    refine Follows.page (Follows.get (Follows.ite (fun _ => ?_) fun _ => ?_))
    · exact pins_unpinPage 0 rfl (Follows.pure rfl)
    · have hnext := pins_coalesceOrRedistribute ho fuel hinv' hq
      rw [levelKind, if_pos hl] at hnext
      exact hnext

end deleting

/-! ## Scanning -/

section scanning

/-- A number of calls of `next_entry`, whatever they return. -/
def nextCalls : ℕ → BplusTreeScanner → TreeM K (List (RC × Option RID) × BplusTreeScanner)
  | 0, scanner => pure ([], scanner)
  | count + 1, scanner => do
    let (rc, rid, scanner) ← nextEntry scanner
    let (calls, scanner) ← nextCalls count scanner
    return ((rc, rid) :: calls, scanner)

/-- A scan: `open`, if that succeeds a number of calls of `next_entry`, and `close`. -/
def scanCalls (type : AttrType) (fuel : ℕ) (left right : Option (type.UserKey × Bool))
    (count : ℕ) : TreeM (IndexKey type.KeyValue) (RC × List (RC × Option RID)) := do
  let (rc, scanner) ← type.openScanner fuel left right .closed
  let (calls, scanner) ← nextCalls count scanner
  let _ ← closeScanner scanner
  return (rc, calls)

/-- The record identifiers of a value. A scanner that cannot be opened is closed by its destructor.
Source: `bplus_tree.cpp`, `BplusTreeHandler::get_entry` -/
def getEntry (type : AttrType) (fuel : ℕ) (userKey : type.UserKey) :
    TreeM (IndexKey type.KeyValue) (RC × List RID) := do
  let (rc, scanner) ← type.openScanner fuel (some (userKey, true)) (some (userKey, true)) .closed
  if rc ≠ .success then
    let _ ← closeScanner scanner
    return (rc, [])
  let (rc, rids, scanner) ← nextEntries fuel scanner
  let _ ← closeScanner scanner
  return (if rc ≠ .recordEof then rc else .success, rids)

variable {fuel : ℕ}

theorem keeps_openScanner (type : AttrType) {s : FlatPool (IndexPage (IndexKey type.KeyValue))}
    (left right : Option (type.UserKey × Bool)) :
    Keeps [] header s (type.openScanner fuel left right .closed) fun r L' => L' = r.2.handles := by
  cases type with
  | ints => exact keeps_openInts compareInt fuel left right
  | floats => exact keeps_openInts Common.compareFloat fuel left right
  | chars attrLength =>
      show Keeps [] header s (openChars attrLength fuel left right .closed) _
      unfold openChars
      refine Keeps.ite (fun _ => Keeps.pure rfl) fun _ => ?_
      refine Keeps.ite (fun _ => Keeps.pure rfl) fun _ => ?_
      exact keeps_openKeys _ fuel _ _ rfl

theorem keeps_nextCalls (count : ℕ) (scanner : BplusTreeScanner) :
    Keeps scanner.handles header s (nextCalls count scanner : TreeM K _)
      fun r L' => L' = r.2.handles := by
  induction count generalizing scanner header s with
  | zero => exact Keeps.pure rfl
  | succ count ih =>
      unfold nextCalls
      refine Keeps.bind (keeps_nextEntry scanner) fun r header' s' L' _ h => ?_
      obtain ⟨rc, rid, scanner'⟩ := r
      subst h
      exact Keeps.bind (ih scanner') fun r header'' s'' L' _ h => Keeps.pure h

theorem keeps_scanCalls (type : AttrType) {s : FlatPool (IndexPage (IndexKey type.KeyValue))}
    (left right : Option (type.UserKey × Bool)) (count : ℕ) :
    Keeps [] header s (scanCalls type fuel left right count) fun _ L' => L' = [] := by
  unfold scanCalls
  refine Keeps.bind (keeps_openScanner type left right) fun r header' s' L' _ h => ?_
  obtain ⟨rc, scanner⟩ := r
  subst h
  refine Keeps.bind (keeps_nextCalls count scanner) fun r header'' s'' L' _ h => ?_
  obtain ⟨calls, scanner'⟩ := r
  subst h
  exact Keeps.bind (keeps_closeScanner scanner') fun _ _ _ L' _ h => Keeps.pure h

theorem keeps_getEntry (type : AttrType) {s : FlatPool (IndexPage (IndexKey type.KeyValue))}
    (userKey : type.UserKey) :
    Keeps [] header s (getEntry type fuel userKey) fun _ L' => L' = [] := by
  unfold getEntry
  refine Keeps.bind (keeps_openScanner type _ _) fun r header' s' L' _ h => ?_
  obtain ⟨rc, scanner⟩ := r
  subst h
  refine Keeps.ite (fun _ => ?_) fun _ => ?_
  · exact Keeps.bind (keeps_closeScanner scanner) fun _ _ _ L' _ h => Keeps.pure h
  · refine Keeps.bind (keeps_nextEntries fuel scanner) fun r header'' s'' L' _ h => ?_
    obtain ⟨rcEnd, rids, scanner'⟩ := r
    subst h
    exact Keeps.bind (keeps_closeScanner scanner') fun _ _ _ L' _ h => Keeps.pure h

end scanning

/-! ## Runs -/

section runs

variable [Inhabited K] {B : Type} [LinearOrder B] [BoundedOrder B] {comparator : K → K → Int}
  {InTree : K → Prop} {pos : K → B}

/-- One operation ends, is balanced, and leaves an index. -/
theorem pins_op (ho : KeyOrder comparator InTree pos) {height : ℕ} {C : Set (K × RID)} (fuel : ℕ)
    (op : IndexOp K) (h : Represents InTree pos header s height C) (hkey : InTree op.key)
    (hfuel : height ≤ fuel) :
    Follows Pins [] header s (op.run comparator fuel) (fun _ L' => L' = []) ∧
      ∃ rc header' s' C', exec flat (op.run comparator fuel) header s =
        some ((rc, header'), s') ∧ Represents InTree pos header' s' (height + 1) C' := by
  cases op with
  | insertEntry key rid =>
      refine ⟨pins_insertEntry comparator fuel key rid, ?_⟩
      rcases insertEntry_ok ho h hkey hfuel with
        ⟨-, hexec⟩ | ⟨-, header', s', hexec, h', -⟩
      · exact ⟨_, header, s, C, hexec, h.succ⟩
      · exact ⟨_, header', s', _, hexec, h'⟩
  | deleteEntry key =>
      refine ⟨pins_deleteEntry ho h hkey hfuel, ?_⟩
      rcases deleteEntry_ok ho fuel h hkey hfuel with
        ⟨-, hexec⟩ | ⟨e, -, -, header', s', hexec, h', -⟩
      · exact ⟨_, header, s, C, hexec, h.succ⟩
      · exact ⟨_, header', s', _, hexec, h'.succ⟩

/-- A run ends, is balanced, and leaves an index. -/
theorem pins_runOps (ho : KeyOrder comparator InTree pos) {height fuel : ℕ} {C : Set (K × RID)}
    (ops : List (IndexOp K)) (h : Represents InTree pos header s height C)
    (hkeys : ∀ op ∈ ops, InTree op.key) (hfuel : height + ops.length ≤ fuel) :
    Follows Pins [] header s (runOps comparator fuel ops) (fun _ L' => L' = []) ∧
      ∃ rcs header' s' C', exec flat (runOps comparator fuel ops) header s =
        some ((rcs, header'), s') ∧ Represents InTree pos header' s' (height + ops.length) C' := by
  induction ops generalizing header s height C with
  | nil => exact ⟨Follows.pure rfl, [], header, s, C, rfl, h⟩
  | cons op ops ih =>
      rw [List.length_cons] at hfuel
      obtain ⟨hop, rc, header₁, s₁, C₁, hexec, h₁⟩ :=
        pins_op ho fuel op h (hkeys op (by simp)) (by omega)
      obtain ⟨hops, rcs, header', s', C', hrun, h'⟩ :=
        ih h₁ (fun o hm => hkeys o (by simp [hm])) (by omega)
      refine ⟨?_, rc :: rcs, header', s', C', by simp [runOps, hexec, hrun], ?_⟩
      · refine Follows.bind hop fun rc' header'' s'' L' hexec' hL => ?_
        rw [hexec, Option.some.injEq, Prod.mk.injEq, Prod.mk.injEq] at hexec'
        obtain ⟨⟨rfl, rfl⟩, rfl⟩ := hexec'
        subst hL
        exact Follows.bind hops fun _ _ _ _ _ hL => Follows.pure hL
      · rw [List.length_cons, Nat.add_comm ops.length 1, ← Nat.add_assoc]
        exact h'

end runs

/-! ## An index on a column -/

section column

variable {type : AttrType}

/-- An operation on an index. -/
inductive IndexCall (type : AttrType)
  /-- `insert_entry(user_key, rid)` -/
  | insertEntry (userKey : type.KeyValue) (rid : RID)
  /-- `delete_entry(user_key, rid)` -/
  | deleteEntry (userKey : type.KeyValue) (rid : RID)
  /-- `get_entry(user_key)` -/
  | getEntry (userKey : type.UserKey)
  /-- A scan with a number of calls of `next_entry`. -/
  | scan (left right : Option (type.UserKey × Bool)) (count : ℕ)

/-- What an operation reports: its code, and the codes and identifiers it has given. -/
abbrev IndexAnswer := RC × List (RC × Option RID)

/-- An operation on the file. -/
def IndexCall.run (fuel : ℕ) : IndexCall type → TreeM (IndexKey type.KeyValue) IndexAnswer
  | insertEntry userKey rid => do
    return (← Index.insertEntry (keyComparator type.compare) fuel ⟨userKey, rid⟩ rid, [])
  | deleteEntry userKey rid => do
    return (← Index.deleteEntry (keyComparator type.compare) fuel ⟨userKey, rid⟩, [])
  | getEntry userKey => do
    let (rc, rids) ← Index.getEntry type fuel userKey
    return (rc, rids.map fun rid => (.success, some rid))
  | scan left right count => scanCalls type fuel left right count

/-- The operations that change the tree, which end on every index. -/
def IndexCall.entryOp : IndexCall type → Option (EntryOp type.KeyValue)
  | insertEntry userKey rid => some (.insertEntry userKey rid)
  | deleteEntry userKey rid => some (.deleteEntry userKey rid)
  | getEntry _ => none
  | scan _ _ _ => none

/-- Make an index on a column and run operations on it. Reading changes no page, so that these are
all the ways in which a tree comes about. -/
def createAndRunOps (type : AttrType) (internalMaxSize leafMaxSize : Int) (fuel : ℕ)
    (ops : List (EntryOp type.KeyValue)) : TreeM (IndexKey type.KeyValue) (RC × List RC) := do
  let rc ← create type.attrLength internalMaxSize leafMaxSize
  let rcs ← runOps (keyComparator type.compare) fuel (ops.map EntryOp.toIndexOp)
  return (rc, rcs)

/-- **Pins are balanced.** After any run on a new index, every operation that ends leaves the pin
count of each page as it was, and until then pages were only changed and unpinned while they were
pinned, and only disposed of while they were not. Inserting and deleting end. -/
theorem pins_balanced (internalMaxSize leafMaxSize : Int)
    (hinternal : 6 ≤ (newFileHeader type.attrLength internalMaxSize leafMaxSize).internalMaxSize)
    (hleaf : 4 ≤ (newFileHeader type.attrLength internalMaxSize leafMaxSize).leafMaxSize)
    {B : Type} [LinearOrder B] [BoundedOrder B] (InTree : IndexKey type.KeyValue → Prop)
    (pos : IndexKey type.KeyValue → B) (ho : KeyOrder (keyComparator type.compare) InTree pos)
    (ops : List (EntryOp type.KeyValue)) (hops : ∀ op ∈ ops, InTree op.makeKey)
    (call : IndexCall type) (hcall : ∀ op ∈ call.entryOp, InTree op.makeKey) (fuel : ℕ)
    (hfuel : ops.length ≤ fuel) :
    ∃ rcs header s t,
      exec tracked (createAndRunOps type internalMaxSize leafMaxSize fuel ops) default
        (.created, .quiet) = some ((rcs, header), (s, t)) ∧
      (call.entryOp ≠ none → ∃ answer, exec tracked (call.run fuel) header (s, t) = some answer) ∧
      ∀ answer header' s' t', exec tracked (call.run fuel) header (s, t) =
          some ((answer, header'), (s', t')) →
        (∀ p, t'.pinned.count p = t.pinned.count p) ∧ t'.sound = true := by
  obtain ⟨s₀, hcreate, h₀⟩ := create_emptyInv (K := IndexKey type.KeyValue) hinternal hleaf default
  have hkeys : ∀ op ∈ ops.map EntryOp.toIndexOp, InTree op.key := by
    intro o ho
    obtain ⟨op, hop, rfl⟩ := List.mem_map.mp ho
    rw [op.key_toIndexOp]
    exact hops op hop
  obtain ⟨hrunPins, rcs, header, s, C, hrun, hrep⟩ := pins_runOps ho (ops.map EntryOp.toIndexOp)
    (Or.inl ⟨h₀, rfl⟩ : Represents InTree pos _ s₀ 0 ∅) hkeys (by simpa using hfuel)
  rw [List.length_map, Nat.zero_add] at hrep
  have hflat : exec flat (createAndRunOps type internalMaxSize leafMaxSize fuel ops) default
      .created = some (((.success, rcs), header), s) := by
    simp [createAndRunOps, hcreate, hrun]
  have hall : Follows Pins [] default .created
      (createAndRunOps type internalMaxSize leafMaxSize fuel ops) fun _ L' => L' = [] := by
    unfold createAndRunOps
    refine Follows.bind (keeps_create type.attrLength internalMaxSize leafMaxSize).pins
      fun a header' s' L' hexec hL => ?_
    rw [hcreate, Option.some.injEq, Prod.mk.injEq, Prod.mk.injEq] at hexec
    obtain ⟨⟨rfl, rfl⟩, rfl⟩ := hexec
    obtain ⟨_, rfl, rfl⟩ := hL
    exact Follows.bind hrunPins fun _ _ _ _ _ hL => Follows.pure hL
  obtain ⟨t, htracked⟩ := exec_tracked_of_flat .quiet hflat
  obtain ⟨L', ht, rfl⟩ := hall .quiet ⟨List.Perm.nil, rfl⟩ _ _ _ _ htracked
  -- the operation after the run
  have hcallPins : Follows Pins [] header s (call.run fuel) fun _ L' => L' = [] := by
    cases call with
    | insertEntry userKey rid =>
        exact Follows.bind (pins_insertEntry _ fuel _ rid) fun _ _ _ _ _ hL => Follows.pure hL
    | deleteEntry userKey rid =>
        have hkey := hcall (.deleteEntry userKey rid) rfl
        exact Follows.bind (pins_deleteEntry ho hrep hkey hfuel) fun _ _ _ _ _ hL => Follows.pure hL
    | getEntry userKey =>
        refine Follows.bind (keeps_getEntry type userKey).pins fun _ _ _ _ _ hL => ?_
        obtain ⟨_, rfl, rfl⟩ := hL
        exact Follows.pure rfl
    | scan left right count =>
        refine (keeps_scanCalls type left right count).pins.mono fun _ _ hL => ?_
        obtain ⟨_, rfl, rfl⟩ := hL
        rfl
  refine ⟨(.success, rcs), header, s, t, htracked, ?_, ?_⟩
  · intro hchanges
    obtain ⟨op, hop⟩ := Option.ne_none_iff_exists'.mp hchanges
    obtain ⟨-, rc, header', s', -, hexec, -⟩ := pins_op ho fuel op.toIndexOp hrep
      (by rw [op.key_toIndexOp]; exact hcall op hop) hfuel
    have hend : exec flat (call.run fuel) header s = some (((rc, []), header'), s') := by
      cases call with
      | insertEntry userKey rid =>
          obtain rfl := Option.some.inj hop
          simp only [EntryOp.toIndexOp, EntryOp.makeKey, IndexOp.run] at hexec
          simp [IndexCall.run, hexec]
      | deleteEntry userKey rid =>
          obtain rfl := Option.some.inj hop
          simp only [EntryOp.toIndexOp, EntryOp.makeKey, IndexOp.run] at hexec
          simp [IndexCall.run, hexec]
      | getEntry userKey => exact absurd rfl hchanges
      | scan left right count => exact absurd rfl hchanges
    obtain ⟨t', ht'⟩ := exec_tracked_of_flat t hend
    exact ⟨_, ht'⟩
  · intro answer header' s' t' hexec
    obtain ⟨L', ht', rfl⟩ := hcallPins t ht _ _ _ _ hexec
    exact ⟨fun p => (ht'.pinned.trans ht.pinned.symm).count_eq p, ht'.sound⟩

/-- A run on an `INTS` index that splits a leaf, and a delete after it. -/
theorem pins_balanced_run : ∃ rcs header s t,
    exec tracked (createAndRunOps .ints 6 4 6 [.insertEntry 1 ⟨1, 1⟩, .insertEntry 2 ⟨1, 2⟩,
        .insertEntry 3 ⟨1, 3⟩, .insertEntry 4 ⟨1, 4⟩, .insertEntry 5 ⟨1, 5⟩]) default
        (.created, .quiet) = some ((rcs, header), (s, t)) ∧
      ∀ answer header' s' t', exec tracked ((.deleteEntry 2 ⟨1, 2⟩ : IndexCall .ints).run 6)
          header (s, t) = some ((answer, header'), (s', t')) →
        (∀ p, t'.pinned.count p = t.pinned.count p) ∧ t'.sound = true := by
  have hops : IntsComparable [.insertEntry 1 ⟨1, 1⟩, .insertEntry 2 ⟨1, 2⟩, .insertEntry 3 ⟨1, 3⟩,
      .insertEntry 4 ⟨1, 4⟩, .insertEntry 5 ⟨1, 5⟩, .deleteEntry 2 ⟨1, 2⟩] :=
    ⟨by decide, by decide⟩
  obtain ⟨rcs, header, s, t, hrun, -, hcall⟩ := @pins_balanced .ints 6 4 (by decide) (by decide) _ _
    _ _ place hops.orders.keyOrder [.insertEntry 1 ⟨1, 1⟩, .insertEntry 2 ⟨1, 2⟩,
      .insertEntry 3 ⟨1, 3⟩, .insertEntry 4 ⟨1, 4⟩, .insertEntry 5 ⟨1, 5⟩]
    (fun op hop => ⟨op, by simp only [List.mem_cons] at hop ⊢; tauto, rfl⟩) (.deleteEntry 2 ⟨1, 2⟩)
    (fun op hop => ⟨op, by simp_all [IndexCall.entryOp], rfl⟩) 6 (by decide)
  exact ⟨rcs, header, s, t, hrun, hcall⟩

end column

end Miniob.Storage.Index
