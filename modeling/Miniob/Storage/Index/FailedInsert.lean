import Miniob.Storage.Index.Pins
import Miniob.Storage.Index.ReachableShape

/-!
# An insert in which a buffer pool call fails

`failing k rc` is the pool in which the `k`-th call of `get_this_page` or `allocate_page` returns
`rc` and does nothing. An insert makes its calls in three stages: `find_leaf` fetches the nodes
from the root to a leaf, the split of a full leaf allocates a page, and what follows fetches the
next leaf, the parents and the header page and allocates pages for parents.

* `findLeafLoop_failing`: the descent lets go of its page before it fetches the next one, so that a
  failed fetch leaves nothing pinned.
* `Ends`, `LeafPoints`: after the first allocation the old leaf is linked to the new page, and
  nothing on the way out of a failed insert takes that back.
* `failed_insert`: in every file a failure in the first two stages leaves no trace. In the files of
  indexes every later failure does.
-/

namespace Miniob.Storage.Index

open Miniob.Lib
open Miniob.Storage.BufferPool (PoolCall FlatPool flat tracked Marks)

variable {K α β : Type}

/-! ## The pool with one failing call -/

/-- The pool `h` in which the `k`-th call of `get_this_page` or `allocate_page` returns `rc` and
does nothing else. The state counts these calls; they are numbered from one. -/
def failing {N σ : Type} (h : Handler (PoolCall N) σ) (k : ℕ) (rc : RC) :
    Handler (PoolCall N) (ℕ × σ) := fun _ call st =>
  match call with
  | .getThisPage p =>
    if st.1 + 1 = k then (rc, st.1 + 1, st.2)
    else ((h _ (.getThisPage p) st.2).1, st.1 + 1, (h _ (.getThisPage p) st.2).2)
  | .allocatePage =>
    if st.1 + 1 = k then ((rc, bpInvalidPageNum), st.1 + 1, st.2)
    else ((h _ .allocatePage st.2).1, st.1 + 1, (h _ .allocatePage st.2).2)
  | .data p => ((h _ (.data p) st.2).1, st.1, (h _ (.data p) st.2).2)
  | .setData p n => ((h _ (.setData p n) st.2).1, st.1, (h _ (.setData p n) st.2).2)
  | .markDirty p => ((h _ (.markDirty p) st.2).1, st.1, (h _ (.markDirty p) st.2).2)
  | .unpinPage p => ((h _ (.unpinPage p) st.2).1, st.1, (h _ (.unpinPage p) st.2).2)
  | .disposePage p => ((h _ (.disposePage p) st.2).1, st.1, (h _ (.disposePage p) st.2).2)
  | .flushAllPages => ((h _ .flushAllPages st.2).1, st.1, (h _ .flushAllPages st.2).2)

/-- A run can be done with books, whichever call fails. -/
theorem exec_failing_of_flat {k : ℕ} {rc : RC} {x : TreeM K α} {header header' : IndexFileHeader}
    {c c' : ℕ} {s s' : FlatPool (IndexPage K)} (t : Marks) {a : α}
    (h : exec (failing flat k rc) x header (c, s) = some ((a, header'), (c', s'))) :
    ∃ t', exec (failing tracked k rc) x header (c, s, t) = some ((a, header'), (c', s', t')) := by
  let R : ℕ × FlatPool (IndexPage K) → ℕ × FlatPool (IndexPage K) × Marks → Prop :=
    fun st su => st = (su.1, su.2.1)
  have hstep : ∀ (δ : Type) (call : PoolCall (IndexPage K) δ) (st : ℕ × FlatPool (IndexPage K))
      (su : ℕ × FlatPool (IndexPage K) × Marks), R st su →
      (failing flat k rc δ call st).1 = (failing tracked k rc δ call su).1 ∧
        R (failing flat k rc δ call st).2 (failing tracked k rc δ call su).2 := by
    rintro δ call _ ⟨c, s, t⟩ rfl
    cases call <;> unfold failing <;> first | exact ⟨rfl, rfl⟩ | (split <;> exact ⟨rfl, rfl⟩)
  have hR : R (c, s) (c, s, t) := rfl
  rcases Prog.run_rel (R := R) hstep (x.run header) hR with
    ⟨hnone, -⟩ | ⟨b, st, su, hst, hsu, heq⟩
  · exact absurd (h.symm.trans hnone) (by simp)
  · have hsome := h.symm.trans hst
    rw [Option.some.injEq, Prod.mk.injEq] at hsome
    obtain ⟨rfl, rfl⟩ := hsome
    obtain ⟨c₁, s₁, t'⟩ := su
    obtain ⟨rfl, rfl⟩ := Prod.mk.inj heq
    exact ⟨t', hsu⟩

/-! ## What a client sees of a tree -/

/-- A page that is reached from the root. -/
def IsNode (header : IndexFileHeader) (s : FlatPool (IndexPage K)) (p : Int) : Prop :=
  header.rootPage ≠ bpInvalidPageNum ∧ ∃ d, Below s header.rootPage d p

/-- An entry that is reached from the root. -/
def IsEntry (header : IndexFileHeader) (s : FlatPool (IndexPage K)) (e : K × RID) : Prop :=
  ∃ p, IsNode header s p ∧ e ∈ (s.page p).entries

/-- The same entries are reached from the root, and the nodes have the same siblings and parents. -/
structure SameTree (header : IndexFileHeader) (s : FlatPool (IndexPage K))
    (header' : IndexFileHeader) (s' : FlatPool (IndexPage K)) : Prop where
  /-- The entries. -/
  entries : ∀ e, IsEntry header' s' e ↔ IsEntry header s e
  /-- The sibling links. -/
  siblings : ∀ p, IsNode header s p →
    (s'.page p).next = (s.page p).next ∧ (s'.page p).prev = (s.page p).prev
  /-- The parent fields. -/
  parents : ∀ p, IsNode header s p → (s'.page p).parentPageNum = (s.page p).parentPageNum

/-- Nothing has changed. -/
theorem SameTree.rfl {header : IndexFileHeader} {s : FlatPool (IndexPage K)} :
    SameTree header s header s :=
  ⟨fun _ => Iff.rfl, fun _ _ => ⟨Eq.refl _, Eq.refl _⟩, fun _ _ => Eq.refl _⟩

/-- The insert whose `k`-th call returns `rc` reports an error, and leaves the tree and the pins as
they were. -/
def FailsCleanly [Inhabited K] (comparator : K → K → Int) (fuel : ℕ) (key : K) (rid : RID)
    (header : IndexFileHeader) (s : FlatPool (IndexPage K)) (t : Marks) (k : ℕ) (rc : RC) : Prop :=
  ∃ rc' header' c' s' t', exec (failing tracked k rc) (insertEntry comparator fuel key rid) header
      (0, s, t) = some ((rc', header'), (c', s', t')) ∧
    rc' ≠ .success ∧ SameTree header s header' s' ∧ ∀ p, t'.pinned.count p = t.pinned.count p

/-- The nodes from the page `p` down to the leaf of a key. -/
def pathFrom (comparator : K → K → Int) (s : FlatPool (IndexPage K)) (key : K) :
    ℕ → Int → Option (List Int)
  | 0, _ => none
  | fuel + 1, p =>
    match s.page p with
    | .leaf _ => some [p]
    | .internal n => do
      let e ← n.items[(n.lookup comparator key).1]?
      let path ← pathFrom comparator s key fuel e.2
      return p :: path
    | .header _ => none

/-- The nodes from the root down to the leaf of a key, none in the empty tree. -/
def pathToLeaf (comparator : K → K → Int) (fuel : ℕ) (header : IndexFileHeader)
    (s : FlatPool (IndexPage K)) (key : K) : Option (List Int) :=
  if header.rootPage = bpInvalidPageNum then some []
  else pathFrom comparator s key fuel header.rootPage

/-! ## Calls on the failing pool -/

section calls

variable {k : ℕ} {rc : RC} (header : IndexFileHeader) (c : ℕ) (s : FlatPool (IndexPage K))
  (t : Marks) (p : Int)

@[simp] theorem failing_getThisPage :
    exec (failing tracked k rc) (getThisPage p) header (c, s, t) =
      if c + 1 = k then some ((rc, header), (c + 1, s, t))
      else some ((.success, header), (c + 1, s, t.pin p)) := by
  show some (((failing tracked k rc _ (.getThisPage p) (c, s, t)).1, header),
    (failing tracked k rc _ (.getThisPage p) (c, s, t)).2) = _
  unfold failing
  by_cases h : c + 1 = k
  · simp only [h, if_true]
  · simp only [h, if_false]
    rfl

@[simp] theorem failing_allocatePage :
    exec (failing tracked k rc) allocatePage header (c, s, t) =
      if c + 1 = k then some (((rc, bpInvalidPageNum), header), (c + 1, s, t))
      else some (((.success, (s.freePage : Int)), header),
        (c + 1, s.allocate, t.pin s.freePage)) := by
  show some (((failing tracked k rc _ (.allocatePage) (c, s, t)).1, header),
    (failing tracked k rc _ (.allocatePage) (c, s, t)).2) = _
  unfold failing
  by_cases h : c + 1 = k
  · simp only [h, if_true]
  · simp only [h, if_false]
    rfl

@[simp] theorem failing_page :
    exec (failing tracked k rc) (page p) header (c, s, t) = some ((s.page p, header), (c, s, t)) := rfl

@[simp] theorem failing_setPage (n : IndexPage K) :
    exec (failing tracked k rc) (setPage p n) header (c, s, t) =
      some (((), header), (c, s.set p n, t.setData p)) := rfl

@[simp] theorem failing_markDirty :
    exec (failing tracked k rc) (markDirty p) header (c, s, t) =
      some (((), header), (c, s, t.markDirty p)) := rfl

@[simp] theorem failing_unpinPage :
    exec (failing tracked k rc) (unpinPage p) header (c, s, t) =
      some ((.success, header), (c, s, t.unpinPage p)) := rfl

@[simp] theorem failing_leafNode :
    exec (failing tracked k rc) (leafNode p) header (c, s, t) =
      match s.page p with
      | .leaf n => some ((n, header), (c, s, t))
      | _ => none := by
  simp only [leafNode, exec_bind, failing_page, andThen_some]
  split <;> simp [*]

@[simp] theorem failing_internalNode :
    exec (failing tracked k rc) (internalNode p) header (c, s, t) =
      match s.page p with
      | .internal n => some ((n, header), (c, s, t))
      | _ => none := by
  simp only [internalNode, exec_bind, failing_page, andThen_some]
  split <;> simp [*]

@[simp] theorem failing_modifyLeaf (f : LeafIndexNode K → LeafIndexNode K) :
    exec (failing tracked k rc) (modifyLeaf p f) header (c, s, t) =
      match s.page p with
      | .leaf n => some (((), header), (c, s.set p (.leaf (f n)), t.setData p))
      | _ => none := by
  simp only [modifyLeaf, exec_bind, failing_leafNode]
  split <;> simp

@[simp] theorem failing_valueAt (n : InternalIndexNode K) (index : ℕ) :
    exec (failing tracked k rc) (valueAt n index) header (c, s, t) =
      n.items[index]?.map fun e => ((e.2, header), (c, s, t)) := by
  simp only [valueAt]
  cases n.items[index]? <;> simp [TreeM.assertSome]

end calls

/-! ## The descent -/

section descent

variable {comparator : K → K → Int} {key : K} {k : ℕ} {rc : RC} {header : IndexFileHeader}
  {s : FlatPool (IndexPage K)}

/-- One step down. -/
theorem findLeafLoop_step (hrc : rc ≠ .success) {fuel : ℕ} {p : Int} {c : ℕ} {t : Marks}
    {n : InternalIndexNode K} {e : K × Int} (hn : s.page p = .internal n)
    (he : n.items[(n.lookup comparator key).1]? = some e) :
    exec (failing tracked k rc) (findLeafLoop (fun n => valueAt n (n.lookup comparator key).1)
        (fuel + 1) p) header (c, s, t) =
      if c + 1 = k then some (((rc, e.2), header), (c + 1, s, t.unpinPage p))
      else exec (failing tracked k rc)
        (findLeafLoop (fun n => valueAt n (n.lookup comparator key).1) fuel e.2) header (c + 1, s, (t.unpinPage p).pin e.2) := by
  by_cases h : c + 1 = k <;> simp [findLeafLoop, hn, IndexPage.isLeaf, he, h, hrc]

/-- A descent that ends has a path. By induction on the fuel. -/
theorem exists_pathFrom (hrc : rc ≠ .success) {fuel : ℕ} {p : Int} {c : ℕ} {t : Marks}
    {r : ((RC × Int) × IndexFileHeader) × ℕ × FlatPool (IndexPage K) × Marks}
    (h : exec (failing tracked 0 rc)
      (findLeafLoop (fun n => valueAt n (n.lookup comparator key).1) fuel p) header (c, s, t) =
        some r) : ∃ path, pathFrom comparator s key fuel p = some path := by
  induction fuel generalizing p c t with
  | zero => cases h
  | succ fuel ih =>
      unfold pathFrom
      cases hn : s.page p with
      | leaf n => exact ⟨_, rfl⟩
      | header n => simp [findLeafLoop, hn, IndexPage.isLeaf] at h
      | internal n =>
          rcases he : n.items[(n.lookup comparator key).1]? with _ | e
          · simp [findLeafLoop, hn, IndexPage.isLeaf, he] at h
          · rw [findLeafLoop_step hrc hn he, if_neg (Nat.succ_ne_zero c)] at h
            obtain ⟨path, hpath⟩ := ih h
            exact ⟨p :: path, by simp [he, hpath]⟩

/-- A path begins with its first page. -/
theorem pathFrom_length_pos {fuel : ℕ} {p : Int} {path : List Int}
    (h : pathFrom comparator s key fuel p = some path) : 0 < path.length := by
  cases fuel with
  | zero => cases h
  | succ fuel =>
      unfold pathFrom at h
      cases hn : s.page p with
      | header n => simp [hn] at h
      | leaf n =>
          obtain rfl : [p] = path := by simpa [hn] using h
          exact Nat.one_pos
      | internal n =>
          simp only [hn, Option.bind_eq_bind, Option.bind_eq_some_iff] at h
          obtain ⟨e, -, rest, -, h⟩ := h
          obtain rfl := Option.some.inj h
          exact Nat.succ_pos _

/-- Letting go of the page that was pinned last. -/
theorem unpinPage_pinned_cons {t : Marks} {p : Int} {L : List Int} (ht : t.pinned = p :: L) :
    (t.unpinPage p).pinned = L := by
  rw [unpinPage_pinned, ht, List.erase_cons_head]

/-- **The descent.** If one of its fetches fails nothing stays pinned, else the leaf at the end of
the path does. By induction on the fuel. -/
theorem findLeafLoop_failing (hrc : rc ≠ .success) {fuel : ℕ} {p : Int} {path : List Int}
    (hpath : pathFrom comparator s key fuel p = some path) {c : ℕ} {t : Marks} {L : List Int}
    (ht : t.pinned = p :: L) :
    (c < k ∧ k < c + path.length → ∃ q t', exec (failing tracked k rc)
        (findLeafLoop (fun n => valueAt n (n.lookup comparator key).1) fuel p) header (c, s, t) =
          some (((rc, q), header), (k, s, t')) ∧ t'.pinned = L) ∧
      (¬ (c < k ∧ k < c + path.length) → ∃ q n t', path.getLast? = some q ∧ s.page q = .leaf n ∧
        exec (failing tracked k rc)
          (findLeafLoop (fun n => valueAt n (n.lookup comparator key).1) fuel p) header (c, s, t) =
            some (((.success, q), header), (c + path.length - 1, s, t')) ∧
        t'.pinned = q :: L) := by
  induction fuel generalizing p path c t with
  | zero => cases hpath
  | succ fuel ih =>
      unfold pathFrom at hpath
      cases hn : s.page p with
      | header n => simp [hn] at hpath
      | leaf n =>
          obtain rfl : [p] = path := by simpa [hn] using hpath
          refine ⟨fun h => ?_, fun _ => ⟨p, n, t, rfl, hn, ?_, ht⟩⟩
          · simp only [List.length_singleton] at h
            omega
          · simp [findLeafLoop, hn, IndexPage.isLeaf]
      | internal n =>
          rcases he : n.items[(n.lookup comparator key).1]? with _ | e
          · simp [hn, he] at hpath
          rcases hrest : pathFrom comparator s key fuel e.2 with _ | rest
          · simp [hn, he, hrest] at hpath
          obtain rfl : p :: rest = path := by simpa [hn, he, hrest] using hpath
          have hpin : ((t.unpinPage p).pin e.2).pinned = e.2 :: L := by
            rw [Marks.pin, unpinPage_pinned_cons ht]
          obtain ⟨hfails, hends⟩ := @ih e.2 rest hrest (c + 1) _ hpin
          rw [findLeafLoop_step hrc hn he, List.length_cons]
          constructor
          · rintro ⟨hck, hk⟩
            by_cases hnow : c + 1 = k
            · rw [if_pos hnow, hnow]
              exact ⟨e.2, _, rfl, unpinPage_pinned_cons ht⟩
            · rw [if_neg hnow]
              exact hfails ⟨by omega, by omega⟩
          · intro hk
            have hpos := pathFrom_length_pos hrest
            rw [if_neg (by omega)]
            obtain ⟨q, m, t', hq, hm, hrun, ht'⟩ := hends (by omega)
            refine ⟨q, m, t', ?_, hm, ?_, ht'⟩
            · rw [List.getLast?_cons, hq]
              rfl
            · rw [hrun]
              congr 3
              omega

end descent

/-! ## The first two stages -/

section stages

variable {comparator : K → K → Int} {key : K} {rid : RID} {k : ℕ} {rc : RC}
  {header : IndexFileHeader} {s : FlatPool (IndexPage K)} {t : Marks} {fuel : ℕ} {path : List Int}
  {q : Int} {n : LeafIndexNode K}

/-- The fetches of `find_leaf` are the calls up to the length of the path. -/
theorem findLeaf_failing (hrc : rc ≠ .success) (hroot : header.rootPage ≠ bpInvalidPageNum)
    (hpath : pathFrom comparator s key fuel header.rootPage = some path) :
    (0 < k ∧ k ≤ path.length → ∃ q t',
        exec (failing tracked k rc) (findLeaf comparator fuel key) header (0, s, t) =
          some (((rc, q), header), (k, s, t')) ∧ t'.pinned = t.pinned) ∧
      (¬ (0 < k ∧ k ≤ path.length) → ∃ q n t', path.getLast? = some q ∧ s.page q = .leaf n ∧
        exec (failing tracked k rc) (findLeaf comparator fuel key) header (0, s, t) =
          some (((.success, q), header), (path.length, s, t')) ∧ t'.pinned = q :: t.pinned) := by
  have hpos := pathFrom_length_pos hpath
  have hpinned : (t.pin header.rootPage).pinned = header.rootPage :: t.pinned := rfl
  have hloop := @findLeafLoop_failing K comparator key k rc header s hrc fuel _ path hpath 1 _ _
    hpinned
  obtain ⟨hfails, hends⟩ := hloop
  by_cases hfirst : k = 1
  · subst hfirst
    refine ⟨fun _ => ⟨header.rootPage, t, ?_, rfl⟩, fun h => absurd ⟨Nat.one_pos, hpos⟩ h⟩
    simp [findLeaf, findLeafInternal, isEmpty, hroot, hrc]
  · have hfetch : exec (failing tracked k rc) (findLeaf comparator fuel key) header (0, s, t) =
        exec (failing tracked k rc)
          (findLeafLoop (fun n => valueAt n (n.lookup comparator key).1) fuel header.rootPage)
          header (1, s, t.pin header.rootPage) := by
      simp [findLeaf, findLeafInternal, isEmpty, hroot, Ne.symm hfirst]
    rw [hfetch]
    constructor
    · intro h
      exact hfails (by omega)
    · intro h
      obtain ⟨q, n, t', hq, hn, hrun, ht'⟩ := hends (by omega)
      exact ⟨q, n, t', hq, hn, by rw [hrun, Nat.add_sub_cancel_left], ht'⟩

/-- The leaf is full and does not have the key, so that it is split. -/
def Splits (comparator : K → K → Int) (header : IndexFileHeader) (n : LeafIndexNode K) (key : K) :
    Prop :=
  (n.lookup comparator key).2 = false ∧ maxSize header .leaf ≤ n.items.length

theorem exec_isEmpty_of_ne (hroot : header.rootPage ≠ bpInvalidPageNum)
    (st : ℕ × FlatPool (IndexPage K) × Marks) :
    exec (failing tracked k rc) isEmpty header st = some ((false, header), st) := by
  simp [isEmpty, hroot]

variable [Inhabited K]

/-- An insert that splits nothing makes no call after `find_leaf`. -/
theorem insertEntryIntoLeafNode_calls (hn : s.page q = .leaf n)
    (h : ¬ Splits comparator header n key) (c : ℕ) :
    ∃ a s' t',
      exec (failing tracked k rc) (insertEntryIntoLeafNode comparator fuel q key rid) header
        (c, s, t) = some ((a, header), (c, s', t')) := by
  rw [Splits, not_and, not_le] at h
  cases hfound : (n.lookup comparator key).2 with
  | true =>
      refine ⟨.recordDuplicateKey, s, t, ?_⟩
      simp [insertEntryIntoLeafNode, hn, hfound]
  | false =>
      refine ⟨.success, s.set q (.leaf (n.insert (n.lookup comparator key).1 key rid)),
        ((t.setData q).markDirty q).unpinPage q, ?_⟩
      simp [insertEntryIntoLeafNode, hn, hfound, h hfound]

/-- A failed allocation of the right half leaves the leaf as it was. -/
theorem insertEntryIntoLeafNode_allocate (hrc : rc ≠ .success) (hn : s.page q = .leaf n)
    (h : Splits comparator header n key) {c : ℕ} (hk : c + 1 = k) :
    exec (failing tracked k rc) (insertEntryIntoLeafNode comparator fuel q key rid) header
      (c, s, t) = some ((rc, header), (c + 1, s, t)) := by
  obtain ⟨hfresh, hfull⟩ := h
  simp [insertEntryIntoLeafNode, hn, hfresh, Nat.not_lt.mpr hfull, split, hk, hrc]

/-- An insert that ends has a path. -/
theorem exists_path_of_run (hrc : rc ≠ .success) (hroot : header.rootPage ≠ bpInvalidPageNum)
    {r : (RC × IndexFileHeader) × ℕ × FlatPool (IndexPage K) × Marks}
    (hrun : exec (failing tracked 0 rc) (insertEntry comparator fuel key rid) header (0, s, t) =
      some r) :
    ∃ path, pathFrom comparator s key fuel header.rootPage = some path := by
  rcases hfind : exec (failing tracked 0 rc) (findLeaf comparator fuel key) header
    (0, s, t) with _ | r
  · simp [insertEntry, exec_isEmpty_of_ne hroot, hfind] at hrun
  · simp only [findLeaf, findLeafInternal, exec_bind, exec_isEmpty_of_ne hroot, andThen_some,
      Bool.false_eq_true, if_false, exec_get, failing_getThisPage, Nat.succ_ne_zero, ne_eq,
      not_true_eq_false] at hfind
    exact exists_pathFrom hrc hfind

/-- An insert that makes more calls than `find_leaf` splits a leaf. -/
theorem splits_of_run (hrc : rc ≠ .success) (hroot : header.rootPage ≠ bpInvalidPageNum)
    (hpath : pathFrom comparator s key fuel header.rootPage = some path) {rc₀ : RC}
    {header₀ : IndexFileHeader} {calls : ℕ} {s₀ : FlatPool (IndexPage K)} {t₀ : Marks}
    (hrun : exec (failing tracked 0 rc) (insertEntry comparator fuel key rid) header (0, s, t) =
      some ((rc₀, header₀), (calls, s₀, t₀))) (hcalls : path.length < calls)
    (hq : path.getLast? = some q) (hn : s.page q = .leaf n) : Splits comparator header n key := by
  by_contra hnot
  obtain ⟨q₀, n₀, t', hq₀, -, hfind, -⟩ := (findLeaf_failing (k := 0) (t := t) hrc hroot hpath).2
    (by omega)
  obtain rfl : q₀ = q := Option.some.inj (hq₀.symm.trans hq)
  have hcalls' : ∃ a s' t'', exec (failing tracked 0 rc)
      (insertEntryIntoLeafNode comparator fuel q₀ key rid) header (path.length, s, t') =
        some ((a, header), (path.length, s', t'')) :=
    insertEntryIntoLeafNode_calls hn hnot _
  obtain ⟨a, s', t'', hleaf⟩ := hcalls'
  have hend : ∃ a s' t', exec (failing tracked 0 rc) (insertEntry comparator fuel key rid) header
      (0, s, t) = some ((a, header), (path.length, s', t')) := by
    by_cases ha : a = .success
    · exact ⟨.success, s', t'', by simp [insertEntry, exec_isEmpty_of_ne hroot, hfind, hleaf, ha]⟩
    · exact ⟨a, s', _, by simp [insertEntry, exec_isEmpty_of_ne hroot, hfind, hleaf, ha]; rfl⟩
  obtain ⟨a, s', t', hrun'⟩ := hend
  rw [hrun', Option.some.injEq, Prod.mk.injEq, Prod.mk.injEq] at hrun
  obtain ⟨-, rfl, -⟩ := hrun
  exact absurd hcalls (lt_irrefl _)

/-- An insert into the empty tree makes a new one. -/
theorem exec_insertEntry_empty {σ : Type} {h : Handler (PoolCall (IndexPage K)) σ} {st : σ}
    (hroot : header.rootPage = bpInvalidPageNum) :
    exec h (insertEntry comparator fuel key rid) header st =
      exec h (createNewTree key rid) header st := by
  simp only [insertEntry, isEmpty, exec_bind, exec_get, exec_pure, andThen_some, hroot, decide_true,
    if_true]

/-- **A failure up to the first allocation leaves no trace.** The failing call is one of those that
the insert makes when nothing fails. -/
theorem failsCleanly_of_le (hrc : rc ≠ .success) {rc₀ : RC} {header₀ : IndexFileHeader}
    {calls : ℕ} {s₀ : FlatPool (IndexPage K)} {t₀ : Marks}
    (hrun : exec (failing tracked 0 rc) (insertEntry comparator fuel key rid) header (0, s, t) =
      some ((rc₀, header₀), (calls, s₀, t₀))) (hk : 0 < k) (hcalls : k ≤ calls) :
    ∃ path, pathToLeaf comparator fuel header s key = some path ∧
      (k ≤ path.length + 1 → FailsCleanly comparator fuel key rid header s t k rc) := by
  by_cases hroot : header.rootPage = bpInvalidPageNum
  · refine ⟨[], if_pos hroot, fun hle => ⟨rc, header, 1, s, t, ?_, hrc, SameTree.rfl, fun _ => rfl⟩⟩
    obtain rfl : k = 1 := by
      rw [List.length_nil] at hle
      omega
    rw [exec_insertEntry_empty hroot]
    simp only [createNewTree, exec_bind, exec_get, andThen_some, exec_pure, hroot, ne_eq,
      not_true_eq_false, if_false, failing_allocatePage, zero_add, if_true, hrc, not_false_eq_true]
  obtain ⟨path, hpath⟩ := exists_path_of_run hrc hroot hrun
  refine ⟨path, by rw [pathToLeaf, if_neg hroot, hpath], fun hle => ?_⟩
  obtain ⟨hfails, hends⟩ := findLeaf_failing (k := k) (t := t) hrc hroot hpath
  by_cases hk' : k ≤ path.length
  · -- a fetch of `find_leaf` fails
    obtain ⟨q, t', hfind, ht'⟩ := hfails ⟨hk, hk'⟩
    refine ⟨rc, header, k, s, t', ?_, hrc, SameTree.rfl, fun p => by rw [ht']⟩
    simp [insertEntry, exec_isEmpty_of_ne hroot, hfind, hrc]
  · -- the allocation of the right half fails
    obtain rfl : path.length + 1 = k := by omega
    obtain ⟨q, n, t', hq, hn, hfind, ht'⟩ := hends (by omega)
    have hsplits := splits_of_run hrc hroot hpath hrun hcalls hq hn
    have hleaf : exec (failing tracked (path.length + 1) rc)
        (insertEntryIntoLeafNode comparator fuel q key rid) header (path.length, s, t') =
          some ((rc, header), (path.length + 1, s, t')) :=
      insertEntryIntoLeafNode_allocate hrc hn hsplits rfl
    refine ⟨rc, header, path.length + 1, s, t'.unpinPage q, ?_, hrc, SameTree.rfl, fun p => ?_⟩
    · simp [insertEntry, exec_isEmpty_of_ne hroot, hfind, hleaf, hrc]
    · rw [unpinPage_pinned_cons ht']

end stages

/-! ## After the first allocation -/

/-- Every run of the program from `P` that ends does so in `Q`, whichever call fails. -/
def Ends (k : ℕ) (rc : RC) (P : ℕ × FlatPool (IndexPage K) × Marks → Prop) (x : TreeM K α)
    (Q : α → ℕ × FlatPool (IndexPage K) × Marks → Prop) : Prop :=
  ∀ header st, P st → ∀ a header' st', exec (failing tracked k rc) x header st =
    some ((a, header'), st') →
    Q a st'

/-- The page `q` is an allocated leaf whose `next_brother` satisfies `Φ`. -/
structure LeafPoints (q : Int) (Φ : Int → Prop) (st : ℕ × FlatPool (IndexPage K) × Marks) :
    Prop where
  /-- No page past the end is allocated. -/
  beyond : ∀ i, st.2.1.pageCount ≤ i → st.2.1.bitmap i = false
  /-- The page is in use. -/
  allocated : st.2.1.Allocated q
  /-- It is a leaf. -/
  leaf : ∃ n, st.2.1.page q = .leaf n ∧ Φ n.nextBrother

/-- The program leaves the link of the leaf alone. -/
abbrev Stays (k : ℕ) (rc : RC) (q : Int) (Φ : Int → Prop) (x : TreeM K α) : Prop :=
  Ends k rc (LeafPoints q Φ) x fun _ => LeafPoints q Φ

section ends

variable {k : ℕ} {rc : RC} {P : ℕ × FlatPool (IndexPage K) × Marks → Prop} {x : TreeM K α}
  {f : α → TreeM K β} {R : α → ℕ × FlatPool (IndexPage K) × Marks → Prop}
  {Q : β → ℕ × FlatPool (IndexPage K) × Marks → Prop}

theorem Ends.bind (hx : Ends k rc P x R) (hf : ∀ a, Ends k rc (R a) (f a) Q) :
    Ends k rc P (x >>= f) Q := by
  intro header st hst b header' st' hrun
  rw [exec_bind] at hrun
  rcases hx' : exec (failing tracked k rc) x header st with _ | ⟨⟨a, header₁⟩, st₁⟩
  · rw [hx'] at hrun
    cases hrun
  · rw [hx', andThen_some] at hrun
    exact hf a header₁ st₁ (hx header st hst a header₁ st₁ hx') b header' st' hrun

theorem Ends.pure {a : α} (h : ∀ st, P st → R a st) : Ends k rc P (pure a : TreeM K α) R := by
  intro header st hst b header' st' hrun
  rw [exec_pure, Option.some.injEq, Prod.mk.injEq, Prod.mk.injEq] at hrun
  obtain ⟨⟨rfl, -⟩, rfl⟩ := hrun
  exact h st hst

theorem Ends.fail : Ends k rc P (TreeM.fail : TreeM K α) R := by
  intro header st hst a header' st' hrun
  cases hrun

theorem Ends.fail_bind : Ends k rc P (TreeM.fail >>= f) Q := by
  intro header st hst a header' st' hrun
  cases hrun

theorem Ends.ite {b : Prop} [Decidable b] {y : TreeM K α} (hx : b → Ends k rc P x R)
    (hy : ¬ b → Ends k rc P y R) : Ends k rc P (if b then x else y) R := by
  split
  case isTrue h => exact hx h
  case isFalse h => exact hy h

/-- What is known before the program starts may be taken out. -/
theorem Ends.of_left {b b' : Prop} (hb : b → b') (hx : b' → Ends k rc P x R) :
    Ends k rc (fun st => b ∧ P st) x R := by
  intro header st hst
  exact hx (hb hst.1) header st hst.2

end ends

section stays

variable {k : ℕ} {rc : RC} {q : Int} {Φ : Int → Prop} {p : Int}

/-- What does not touch the page of the leaf keeps its link. -/
theorem LeafPoints.congr {st st' : ℕ × FlatPool (IndexPage K) × Marks} (h : LeafPoints q Φ st)
    (hcount : st'.2.1.pageCount = st.2.1.pageCount) (hbitmap : st'.2.1.bitmap = st.2.1.bitmap)
    (hleaf : ∃ n, st'.2.1.page q = .leaf n ∧ Φ n.nextBrother) : LeafPoints q Φ st' := by
  refine ⟨fun i hi => ?_, ?_, hleaf⟩
  · rw [hbitmap]
    exact h.beyond i (hcount ▸ hi)
  · simpa only [FlatPool.Allocated, hbitmap] using h.allocated

/-- Pinning, unpinning and marking change no page. -/
theorem stays_of_pages {x : TreeM K α}
    (hx : ∀ header st r, exec (failing tracked k rc) x header st = some r → r.2.2.1 = st.2.1) :
    Stays k rc q Φ x := by
  intro header st hst a header' st' hrun
  have hpages := hx header st _ hrun
  exact hst.congr (by rw [hpages]) (by rw [hpages]) (by rw [hpages]; exact hst.leaf)

theorem stays_getThisPage : Stays k rc q Φ (getThisPage p : TreeM K RC) := by
  apply stays_of_pages
  rintro header ⟨c, s, t⟩ r hrun
  rw [failing_getThisPage] at hrun
  split at hrun <;> cases hrun <;> rfl

theorem stays_page : Stays k rc q Φ (page p : TreeM K _) := by
  apply stays_of_pages
  rintro header ⟨c, s, t⟩ r hrun
  cases hrun
  rfl

theorem stays_markDirty : Stays k rc q Φ (markDirty p : TreeM K _) := by
  apply stays_of_pages
  rintro header ⟨c, s, t⟩ r hrun
  cases hrun
  rfl

theorem stays_unpinPage : Stays k rc q Φ (unpinPage p : TreeM K _) := by
  apply stays_of_pages
  rintro header ⟨c, s, t⟩ r hrun
  cases hrun
  rfl

theorem stays_get : Stays k rc q Φ (get : TreeM K IndexFileHeader) := by
  apply stays_of_pages
  rintro header ⟨c, s, t⟩ r hrun
  cases hrun
  rfl

theorem stays_modify (g : IndexFileHeader → IndexFileHeader) :
    Stays k rc q Φ (modify g : TreeM K Unit) := by
  apply stays_of_pages
  rintro header ⟨c, s, t⟩ r hrun
  cases hrun
  rfl

theorem stays_leafNode : Stays k rc q Φ (leafNode p : TreeM K _) := by
  refine Ends.bind stays_page fun n => ?_
  cases n with
  | leaf n => exact Ends.pure fun _ h => h
  | header _ => exact Ends.fail
  | internal _ => exact Ends.fail

theorem stays_internalNode : Stays k rc q Φ (internalNode p : TreeM K _) := by
  refine Ends.bind stays_page fun n => ?_
  cases n with
  | internal n => exact Ends.pure fun _ h => h
  | header _ => exact Ends.fail
  | leaf _ => exact Ends.fail

theorem stays_keyAt (index : ℕ) : Stays k rc q Φ (keyAt p index : TreeM K _) := by
  refine Ends.bind stays_page fun n => ?_
  cases n.keyAt? index with
  | some a => exact Ends.pure fun _ h => h
  | none => exact Ends.fail

/-- A page that is no leaf is not the leaf. -/
theorem ends_page : Ends k rc (LeafPoints q Φ) (page p : TreeM K (IndexPage K))
    fun n st => (n.isLeaf = false → p ≠ q) ∧ LeafPoints q Φ st := by
  rintro header ⟨c, s, t⟩ hst a header' st' hrun
  rw [failing_page, Option.some.injEq, Prod.mk.injEq, Prod.mk.injEq] at hrun
  obtain ⟨⟨rfl, -⟩, rfl⟩ := hrun
  refine ⟨?_, hst⟩
  rintro hn rfl
  obtain ⟨m, hm, -⟩ := hst.leaf
  change s.page p = _ at hm
  simp [hm, IndexPage.isLeaf] at hn

/-- Another page may become anything. -/
theorem stays_setPage {n : IndexPage K} (hp : p ≠ q) : Stays k rc q Φ (setPage p n) := by
  rintro header ⟨c, s, t⟩ hst a header' st' hrun
  cases hrun
  obtain ⟨m, hm, hΦ⟩ := hst.leaf
  exact hst.congr rfl rfl ⟨m, (Function.update_of_ne (Ne.symm hp) _ _).trans hm, hΦ⟩

/-- A leaf may be changed with its link kept, another leaf in any way. -/
theorem stays_modifyLeaf {g : LeafIndexNode K → LeafIndexNode K}
    (hg : p ≠ q ∨ ∀ n, (g n).nextBrother = n.nextBrother) : Stays k rc q Φ (modifyLeaf p g) := by
  rintro header ⟨c, s, t⟩ hst a header' st' hrun
  obtain ⟨m, hm, hΦ⟩ := hst.leaf
  rw [failing_modifyLeaf] at hrun
  cases hn : s.page p with
  | header _ => simp [hn] at hrun
  | internal _ => simp [hn] at hrun
  | leaf n =>
      simp only [hn] at hrun
      cases hrun
      by_cases hp : p = q
      · subst hp
        obtain rfl : n = m := by simpa using hn.symm.trans hm
        refine hst.congr rfl rfl ⟨g n, Function.update_self _ _ _, ?_⟩
        rw [hg.resolve_left (fun h => h rfl)]
        exact hΦ
      · exact hst.congr rfl rfl ⟨m, (Function.update_of_ne (Ne.symm hp) _ _).trans hm, hΦ⟩

/-- The page of the leaf is no internal node. -/
theorem stays_modifyInternal {g : InternalIndexNode K → InternalIndexNode K} :
    Stays k rc q Φ (modifyInternal p g) := by
  rintro header ⟨c, s, t⟩ hst a header' st' hrun
  obtain ⟨m, hm, hΦ⟩ := hst.leaf
  simp only [modifyInternal, exec_bind, failing_internalNode] at hrun
  cases hn : s.page p with
  | header _ => simp [hn] at hrun
  | leaf _ => simp [hn] at hrun
  | internal n =>
      have hp : q ≠ p := by
        rintro rfl
        cases hm.symm.trans hn
      simp only [hn, andThen_some] at hrun
      cases hrun
      exact hst.congr rfl rfl ⟨m, (Function.update_of_ne hp _ _).trans hm, hΦ⟩

theorem stays_setParentPageNum (P : Int) :
    Stays k rc q Φ (setParentPageNum p P : TreeM K Unit) := by
  rintro header ⟨c, s, t⟩ hst a header' st' hrun
  obtain ⟨m, hm, hΦ⟩ := hst.leaf
  cases hrun
  by_cases hp : q = p
  · subst hp
    refine hst.congr rfl rfl ⟨{ m with parent := P }, ?_, hΦ⟩
    exact (Function.update_self _ _ _).trans (congrArg (IndexPage.setParentPageNum P) hm)
  · exact hst.congr rfl rfl ⟨m, (Function.update_of_ne hp _ _).trans hm, hΦ⟩

/-- The page that is allocated is not the leaf. -/
theorem ends_allocatePage (hrc : rc ≠ .success) :
    Ends k rc (LeafPoints q Φ) (allocatePage : TreeM K (RC × Int))
      fun r st => (r.1 = .success → r.2 ≠ q) ∧ LeafPoints q Φ st := by
  rintro header ⟨c, s, t⟩ hst a header' st' hrun
  rw [failing_allocatePage] at hrun
  split at hrun
  · cases hrun
    exact ⟨fun h => absurd h hrc, hst.congr rfl rfl hst.leaf⟩
  · cases hrun
    have hne : q ≠ s.freePage := by
      rintro rfl
      exact FlatPool.freePage_not_allocated hst.beyond hst.allocated
    obtain ⟨m, hm, hΦ⟩ := hst.leaf
    refine ⟨fun _ => hne.symm, fun i hi => ?_, (FlatPool.allocated_allocate q).mpr
      (Or.inl hst.allocated), m, (FlatPool.allocate_page_of_ne hne).trans hm, hΦ⟩
    simp only [FlatPool.allocate, sup_le_iff] at hi ⊢
    rw [Function.update_of_ne (by omega)]
    exact hst.beyond i hi.1

/-! ### The programs of an insert -/

theorem stays_setChildrenParent (P : Int) (items : List (K × Int)) :
    Stays k rc q Φ (setChildrenParent P items) := by
  induction items with
  | nil => exact Ends.pure fun _ h => h
  | cons e items ih =>
      unfold setChildrenParent
      refine Ends.bind stays_getThisPage fun rc' => Ends.ite (fun _ => Ends.pure fun _ h => h) ?_
      intro _
      refine Ends.bind (stays_setParentPageNum P) fun _ => Ends.bind stays_markDirty fun _ => ?_
      exact Ends.bind stays_unpinPage fun _ => ih

theorem stays_copyFrom (items : List (K × Int)) : Stays k rc q Φ (copyFrom p items) := by
  unfold copyFrom
  refine Ends.bind (stays_setChildrenParent p items) fun rc' => ?_
  refine Ends.ite (fun _ => Ends.pure fun _ h => h) fun _ => ?_
  exact Ends.bind stays_modifyInternal fun _ => Ends.pure fun _ h => h

theorem stays_moveHalfTo (r : Int) : Stays k rc q Φ (moveHalfTo (K := K) .internal p r) := by
  unfold moveHalfTo
  refine Ends.bind stays_internalNode fun n => Ends.bind (stays_copyFrom _) fun rc' => ?_
  refine Ends.ite (fun _ => Ends.pure fun _ h => h) fun _ => ?_
  exact Ends.bind stays_modifyInternal fun _ => Ends.pure fun _ h => h

theorem stays_split (hrc : rc ≠ .success) : Stays k rc q Φ (split (K := K) .internal p) := by
  unfold split
  refine Ends.bind (ends_allocatePage hrc) fun r => ?_
  obtain ⟨rc', r⟩ := r
  refine Ends.ite (fun _ => Ends.pure fun _ h => h.2) fun hok => ?_
  rw [not_not] at hok
  subst hok
  refine Ends.of_left (fun h => h rfl) fun hr => ?_
  refine Ends.bind (stays_setPage hr) fun _ => Ends.bind stays_page fun n => ?_
  refine Ends.bind (stays_setParentPageNum _) fun _ => Ends.bind (stays_moveHalfTo r) fun _ => ?_
  refine Ends.bind stays_markDirty fun _ => Ends.bind stays_markDirty fun _ => ?_
  exact Ends.pure fun _ h => h

theorem stays_updateRootPageNum : Stays k rc q Φ (updateRootPageNum : TreeM K RC) := by
  unfold updateRootPageNum
  refine Ends.bind stays_getThisPage fun rc' => Ends.ite (fun _ => Ends.pure fun _ h => h) ?_
  intro _
  refine Ends.bind stays_get fun header => ?_
  refine Ends.bind ends_page fun n => ?_
  cases n with
  | leaf _ => exact Ends.fail_bind
  | internal _ => exact Ends.fail_bind
  | header h =>
      refine Ends.of_left (fun h => h rfl) fun hp => ?_
      refine Ends.bind (stays_setPage hp) fun _ => ?_
      refine Ends.bind stays_markDirty fun _ => Ends.bind stays_unpinPage fun _ => ?_
      exact Ends.pure fun _ h => h

/-- An allocation that does not fail takes the free page. -/
theorem ends_allocatePage_free (hrc : rc ≠ .success) {c : ℕ} {s : FlatPool (IndexPage K)}
    {t : Marks} (hk : c + 1 ≠ k) (h : LeafPoints q Φ (c, s, t)) :
    Ends k rc (fun st => st = (c, s, t)) (allocatePage : TreeM K (RC × Int))
      fun r st => (r = (.success, (s.freePage : Int)) ∧ r.2 ≠ q) ∧ LeafPoints q Φ st := by
  rintro header _ rfl a header' st' hrun
  obtain ⟨hne, hst⟩ := ends_allocatePage hrc header _ h a header' st' hrun
  rw [failing_allocatePage, if_neg hk, Option.some.injEq, Prod.mk.injEq, Prod.mk.injEq] at hrun
  obtain ⟨⟨rfl, -⟩, -⟩ := hrun
  exact ⟨⟨rfl, hne rfl⟩, hst⟩

/-- Splitting the leaf keeps its link. -/
theorem ends_split_leaf (hrc : rc ≠ .success) {c : ℕ} {s : FlatPool (IndexPage K)} {t : Marks}
    (hk : c + 1 ≠ k) (h : LeafPoints q Φ (c, s, t)) :
    Ends k rc (fun st => st = (c, s, t)) (split .leaf q)
      fun r st => (r = (.success, (s.freePage : Int)) ∧ r.2 ≠ q) ∧ LeafPoints q Φ st := by
  unfold split moveHalfTo
  refine Ends.bind (ends_allocatePage_free hrc hk h) fun r => Ends.of_left id fun hr => ?_
  obtain ⟨rfl, hne⟩ := hr
  refine Ends.ite (fun hbad => absurd rfl hbad) fun _ => ?_
  refine Ends.bind (stays_setPage hne) fun _ => Ends.bind stays_page fun n => ?_
  refine Ends.bind (stays_setParentPageNum _) fun _ => ?_
  have hmove : Stays k rc q Φ (do
      let n ← leafNode (K := K) q
      modifyLeaf (s.freePage : Int) fun o =>
        { o with items := n.items.drop (n.items.length / 2) ++ o.items }
      modifyLeaf q fun m => { m with items := m.items.take (n.items.length / 2) }
      return RC.success) := by
    refine Ends.bind stays_leafNode fun n => ?_
    refine Ends.bind (stays_modifyLeaf (Or.inl hne)) fun _ => ?_
    refine Ends.bind (stays_modifyLeaf (Or.inr fun _ => rfl)) fun _ => ?_
    exact Ends.pure fun _ h => h
  refine Ends.bind hmove fun _ => ?_
  refine Ends.bind stays_markDirty fun _ => Ends.bind stays_markDirty fun _ => ?_
  exact Ends.pure fun _ h => ⟨⟨rfl, hne⟩, h⟩

/-- The leaf is linked to its right half. -/
theorem ends_relink (r : Int) : Ends k rc (LeafPoints q Φ)
    (modifyLeaf q fun n : LeafIndexNode K => { n with nextBrother := r })
    fun _ => LeafPoints q (· = r) := by
  rintro header ⟨c, s, t⟩ hst a header' st' hrun
  obtain ⟨m, hm, -⟩ := hst.leaf
  change s.page q = _ at hm
  simp only [failing_modifyLeaf, hm] at hrun
  cases hrun
  refine ⟨hst.beyond, hst.allocated, { m with nextBrother := r }, Function.update_self _ _ _, rfl⟩

variable [Inhabited K]

theorem stays_insertNewRoot (hrc : rc ≠ .success) (r : Int) (key : K) :
    Stays k rc q Φ (insertNewRoot p r key) := by
  unfold insertNewRoot
  refine Ends.bind (ends_allocatePage hrc) fun a => ?_
  obtain ⟨rc', root⟩ := a
  refine Ends.ite (fun _ => Ends.pure fun _ h => h.2) fun hok => ?_
  rw [not_not] at hok
  refine Ends.of_left (fun h => h hok) fun hroot => ?_
  refine Ends.bind (stays_setPage hroot) fun _ => Ends.bind stays_modifyInternal fun _ => ?_
  refine Ends.bind (stays_setParentPageNum _) fun _ => ?_
  refine Ends.bind (stays_setParentPageNum _) fun _ => ?_
  refine Ends.bind stays_markDirty fun _ => Ends.bind stays_markDirty fun _ => ?_
  refine Ends.bind stays_unpinPage fun _ => Ends.bind stays_unpinPage fun _ => ?_
  refine Ends.bind (stays_modify _) fun _ => Ends.bind stays_updateRootPageNum fun _ => ?_
  refine Ends.bind stays_markDirty fun _ => Ends.bind stays_unpinPage fun _ => ?_
  exact Ends.pure fun _ h => h

/-- The way up from the split leaf, by induction on the fuel. -/
theorem stays_insertEntryIntoParent (hrc : rc ≠ .success) (comparator : K → K → Int) (fuel : ℕ)
    (r : Int) (key : K) : Stays k rc q Φ (insertEntryIntoParent comparator fuel p r key) := by
  induction fuel generalizing p r key with
  | zero => exact Ends.fail
  | succ fuel ih =>
      unfold insertEntryIntoParent
      refine Ends.bind stays_page fun n => Ends.ite (fun _ => stays_insertNewRoot hrc r key) ?_
      intro _
      refine Ends.bind stays_getThisPage fun rc' => Ends.ite (fun _ => Ends.pure fun _ h => h) ?_
      intro _
      refine Ends.bind stays_internalNode fun parent => Ends.bind stays_get fun header => ?_
      refine Ends.ite (fun _ => ?_) fun _ => ?_
      · -- the parent has room
        refine Ends.bind stays_modifyInternal fun _ => Ends.bind (stays_setParentPageNum _) ?_
        intro _
        refine Ends.bind stays_markDirty fun _ => Ends.bind stays_markDirty fun _ => ?_
        refine Ends.bind stays_markDirty fun _ => Ends.bind stays_unpinPage fun _ => ?_
        refine Ends.bind stays_unpinPage fun _ => Ends.bind stays_unpinPage fun _ => ?_
        exact Ends.pure fun _ h => h
      · refine Ends.bind (stays_split hrc) fun a => ?_
        obtain ⟨rc', newParent⟩ := a
        refine Ends.ite (fun _ => ?_) fun _ => ?_
        · refine Ends.bind stays_unpinPage fun _ => Ends.bind stays_unpinPage fun _ => ?_
          exact Ends.bind stays_unpinPage fun _ => Ends.pure fun _ h => h
        · have hrest : Stays k rc q Φ (do
              let _ ← unpinPage p
              let _ ← unpinPage r
              insertEntryIntoParent comparator fuel n.parentPageNum newParent
                (← keyAt newParent 0)) := by
            refine Ends.bind stays_unpinPage fun _ => Ends.bind stays_unpinPage fun _ => ?_
            exact Ends.bind (stays_keyAt 0) fun key' => ih newParent key'
          refine Ends.bind (stays_keyAt 0) fun key' => Ends.ite (fun _ => ?_) fun _ => ?_
          · refine Ends.bind stays_modifyInternal fun _ => ?_
            exact Ends.bind (stays_setParentPageNum _) fun _ => hrest
          · refine Ends.bind stays_modifyInternal fun _ => ?_
            exact Ends.bind (stays_setParentPageNum _) fun _ => hrest

/-- **A leaf that is split stays linked to the new page**, whichever later call fails. -/
theorem insertEntryIntoLeafNode_links (hrc : rc ≠ .success) {comparator : K → K → Int} {fuel : ℕ}
    {key : K} {rid : RID} {header header' : IndexFileHeader} {c : ℕ} {s : FlatPool (IndexPage K)}
    {t : Marks} {n : LeafIndexNode K} {a : RC} {st' : ℕ × FlatPool (IndexPage K) × Marks}
    (hk : c + 1 ≠ k) (h : LeafPoints q Φ (c, s, t)) (hn : s.page q = .leaf n)
    (hsplits : Splits comparator header n key)
    (hrun : exec (failing tracked k rc) (insertEntryIntoLeafNode comparator fuel q key rid) header
      (c, s, t) = some ((a, header'), st')) : LeafPoints q (· = s.freePage) st' := by
  obtain ⟨hfresh, hfull⟩ := hsplits
  obtain ⟨position, found, hlookup⟩ : ∃ i b, n.lookup comparator key = (i, b) := ⟨_, _, rfl⟩
  obtain rfl : found = false := by rw [← hfresh, hlookup]
  unfold insertEntryIntoLeafNode at hrun
  simp only [exec_bind, failing_leafNode, hn, andThen_some, hlookup, Bool.false_eq_true, if_false,
    exec_get, Nat.not_lt.mpr hfull] at hrun
  rcases hsplit : exec (failing tracked k rc) (split .leaf q) header (c, s, t) with
    _ | ⟨⟨⟨rc', r⟩, header₁⟩, st₁⟩
  · rw [hsplit] at hrun
    cases hrun
  obtain ⟨⟨heq, hne⟩, hst₁⟩ := ends_split_leaf hrc hk h header _ rfl _ _ _ hsplit
  obtain ⟨rfl, rfl⟩ := Prod.mk.injEq .. ▸ heq
  rw [hsplit, andThen_some] at hrun
  have hrest : Ends k rc (LeafPoints q (· = (s.freePage : Int))) (do
      let leaf ← leafNode q
      if position < leaf.items.length then
        modifyLeaf q fun n => n.insert position key rid
      else
        modifyLeaf (s.freePage : Int) fun n => n.insert (position - leaf.items.length) key rid
      insertEntryIntoParent comparator fuel q s.freePage (← keyAt s.freePage 0))
      fun _ => LeafPoints q (· = (s.freePage : Int)) := by
    refine Ends.bind stays_leafNode fun m => Ends.ite (fun _ => ?_) fun _ => ?_
    · refine Ends.bind (stays_modifyLeaf (Or.inr fun _ => rfl)) fun _ => ?_
      exact Ends.bind (stays_keyAt 0) fun k => stays_insertEntryIntoParent hrc comparator fuel _ k
    · refine Ends.bind (stays_modifyLeaf (Or.inr fun _ => rfl)) fun _ => ?_
      exact Ends.bind (stays_keyAt 0) fun k => stays_insertEntryIntoParent hrc comparator fuel _ k
  refine (?_ : Ends k rc (LeafPoints q Φ) _ fun _ => LeafPoints q (· = (s.freePage : Int)))
    header₁ st₁ hst₁ a header' st' hrun
  refine Ends.ite (fun hbad => absurd rfl hbad) fun _ => ?_
  refine Ends.bind stays_leafNode fun m => ?_
  refine Ends.bind (stays_modifyLeaf (Or.inr fun _ => rfl)) fun _ => ?_
  refine Ends.bind (stays_modifyLeaf (Or.inl hne)) fun _ => ?_
  refine Ends.bind (stays_modifyLeaf (Or.inr fun _ => rfl)) fun _ => ?_
  refine Ends.bind (ends_relink _) fun _ => Ends.bind stays_leafNode fun o => ?_
  refine Ends.ite (fun _ => ?_) fun _ => hrest
  refine Ends.bind stays_getThisPage fun rc' => Ends.ite (fun _ => Ends.pure fun _ h => h) ?_
  intro _
  refine Ends.bind (stays_modifyLeaf (Or.inr fun _ => rfl)) fun _ => ?_
  exact Ends.bind stays_unpinPage fun _ => hrest

end stays

/-! ## Indexes -/

section indexes

variable {B : Type} [LinearOrder B] [BoundedOrder B] {comparator : K → K → Int} {InTree : K → Prop}
  {pos : K → B} {key : K} {rid : RID} {k : ℕ} {rc : RC} {header : IndexFileHeader}
  {s : FlatPool (IndexPage K)} {g : Ghost B} {t : Marks} {fuel : ℕ} {path : List Int} {p q : Int}

/-- The path of a key leads from node to node. By induction on the fuel. -/
theorem IndexInv.getLast_path (h : IndexInv InTree pos header s g none none)
    (hpath : pathFrom comparator s key fuel p = some path) (hq : path.getLast? = some q)
    (hp : p ∈ g.nodes) {d : ℕ} (hbelow : Below s header.rootPage d p) :
    q ∈ g.nodes ∧ ∃ d, Below s header.rootPage d q := by
  induction fuel generalizing p path d with
  | zero => cases hpath
  | succ fuel ih =>
      unfold pathFrom at hpath
      cases hn : s.page p with
      | header n => simp [hn] at hpath
      | leaf n =>
          obtain rfl : [p] = path := by simpa [hn] using hpath
          obtain rfl : p = q := by simpa using hq
          exact ⟨hp, d, hbelow⟩
      | internal n =>
          simp only [hn, Option.bind_eq_bind, Option.bind_eq_some_iff] at hpath
          obtain ⟨e, he, rest, hrest, hpath⟩ := hpath
          obtain rfl := Option.some.inj hpath
          have hmem := List.mem_of_getElem? he
          have hC : (view s).children p = n.items := by simp [view, hn, IndexPage.children]
          refine ih hrest ?_ (h.tree.child p hp e (hC.symm ▸ hmem)).1 (Below.child hbelow hn hmem)
          obtain ⟨a, rest, rfl⟩ := List.exists_cons_of_length_pos (pathFrom_length_pos hrest)
          exact hq

/-- The leaf of a path may be split: the page for its right half is not its neighbour. -/
theorem IndexInv.leafPoints (h : IndexInv InTree pos header s g none none) (hq : q ∈ g.nodes)
    {n : LeafIndexNode K} (hn : s.page q = .leaf n) (c : ℕ) (t : Marks) :
    LeafPoints q (fun _ => True) (c, s, t) ∧ n.nextBrother ≠ s.freePage := by
  refine ⟨⟨h.store.beyond, (h.store.nodes q hq).1, n, hn, trivial⟩, ?_⟩
  have hl : g.level q = 0 := by
    by_contra hl
    obtain ⟨m, hm, -⟩ := h.exists_internal hq hl
    cases hn.symm.trans hm
  have hnext := h.tree.next q hq hl
  simp only [view, hn, IndexPage.next] at hnext
  obtain ⟨hfree, -⟩ := h.store.freePage
  rcases hnext with ⟨-, hend⟩ | ⟨hmem, -⟩
  · rw [hend, bpInvalidPageNum]
    omega
  · intro heq
    exact hfree (heq ▸ hmem)

/-- A failed fetch of the header page. -/
theorem updateRootPageNum_fails (hrc : rc ≠ .success) {c : ℕ} (hc : c + 1 = k) :
    exec (failing tracked k rc) updateRootPageNum header (c, s, t) =
      some ((rc, header), (c + 1, s, t)) := by
  simp only [updateRootPageNum, exec_bind, failing_getThisPage, hc, if_true, andThen_some, ne_eq,
    hrc, not_false_eq_true, exec_pure]

/-- A header page that is fetched is written. -/
theorem updateRootPageNum_succeeds {c : ℕ} (hc : c + 1 ≠ k) {h : IndexFileHeader}
    (hfirst : s.page firstIndexPage = .header h) :
    exec (failing tracked k rc) updateRootPageNum header (c, s, t) = some ((.success, header),
      (c + 1, s.set firstIndexPage (.header { h with rootPage := header.rootPage }),
        (((t.pin firstIndexPage).setData firstIndexPage).markDirty firstIndexPage).unpinPage
          firstIndexPage)) := by
  simp only [updateRootPageNum, exec_bind, failing_getThisPage, hc, if_false, andThen_some, ne_eq,
    not_true_eq_false, exec_pure, exec_get, failing_page, hfirst, failing_setPage,
    failing_markDirty, failing_unpinPage]

/-- Filling the page of a new root. -/
theorem exec_fillRoot (f : TreeM K RC) (c : ℕ) (p : Int) :
    ∃ t', exec (failing tracked k rc) (do
        setPage p (.initEmpty .leaf)
        modifyLeaf p fun n => n.insert 0 key rid
        modify fun h => { h with rootPage := p }
        markDirty p
        let _ ← unpinPage p
        f) header (c, s, t) =
      exec (failing tracked k rc) f { header with rootPage := p }
        (c, s.set p (.leaf ⟨-1, -1, -1, [(key, rid)]⟩), t') := by
  refine ⟨(((t.setData p).setData p).markDirty p).unpinPage p, ?_⟩
  simp only [exec_bind, andThen_some, failing_setPage, IndexPage.initEmpty, failing_modifyLeaf,
    FlatPool.set_page, if_true, FlatPool.set_set, exec_modify, failing_markDirty, failing_unpinPage]
  rfl

/-- A new root that is allocated is there when the header page is fetched. -/
theorem createNewTree_root (hk : 1 ≠ k) (hroot : header.rootPage = bpInvalidPageNum) :
    ∃ t', exec (failing tracked k rc) (createNewTree key rid) header (0, s, t) =
      exec (failing tracked k rc) updateRootPageNum { header with rootPage := s.freePage }
        (1, s.allocate.set s.freePage (.leaf ⟨-1, -1, -1, [(key, rid)]⟩), t') := by
  have hallocate :
      exec (failing tracked k rc) (allocatePage : TreeM K (RC × Int)) header (0, s, t) =
      some (((.success, (s.freePage : Int)), header), (1, s.allocate, t.pin s.freePage)) := by
    rw [failing_allocatePage, zero_add, if_neg hk]
  obtain ⟨t', hfill⟩ := @exec_fillRoot K key rid k rc header s.allocate (t.pin s.freePage)
    updateRootPageNum 1 s.freePage
  refine ⟨t', ?_⟩
  rw [← hfill]
  unfold createNewTree
  rw [exec_bind, exec_get, andThen_some, exec_ite, if_neg (not_not.mpr hroot), exec_bind, hallocate,
    andThen_some]
  dsimp only
  rw [exec_ite, if_neg (not_not.mpr rfl)]

variable [Inhabited K]

/-- The new root of an empty tree stays when the header page cannot be fetched. -/
theorem EmptyInv.not_failsCleanly (h : EmptyInv header s) (hrc : rc ≠ .success) (hk : 2 ≤ k) :
    ¬ FailsCleanly comparator fuel key rid header s t k rc := by
  rintro ⟨rc', header', c', s', t', hexec, hrc', hsame, -⟩
  obtain ⟨t₁, hcreate⟩ : ∃ t',
      exec (failing tracked k rc) (createNewTree key rid) header (0, s, t) =
      exec (failing tracked k rc) updateRootPageNum { header with rootPage := s.freePage }
        (1, s.allocate.set s.freePage (.leaf ⟨-1, -1, -1, [(key, rid)]⟩), t') :=
    createNewTree_root (by omega) h.root
  rw [exec_insertEntry_empty h.root, hcreate] at hexec
  by_cases htwo : 2 = k
  · rw [updateRootPageNum_fails hrc htwo, Option.some.injEq, Prod.mk.injEq, Prod.mk.injEq,
      Prod.mk.injEq, Prod.mk.injEq] at hexec
    obtain ⟨⟨-, rfl⟩, -, rfl, -⟩ := hexec
    have hnode : IsNode { header with rootPage := (s.freePage : Int) }
        (s.allocate.set s.freePage (.leaf ⟨-1, -1, -1, [(key, rid)]⟩)) s.freePage :=
      ⟨by simp [bpInvalidPageNum], 0, Below.root⟩
    obtain ⟨p, ⟨hroot, -⟩, -⟩ := (hsame.entries (key, rid)).mp
      ⟨s.freePage, hnode, by simp [IndexPage.entries]⟩
    exact hroot h.root
  · have hfree : firstIndexPage ≠ (s.freePage : Int) := by
      have := h.store.freePage.2
      rw [firstIndexPage]
      omega
    have hfirst : (s.allocate.set s.freePage (.leaf ⟨-1, -1, -1, [(key, rid)]⟩)).page
        firstIndexPage = .header header := by
      rw [FlatPool.set_page, if_neg hfree, FlatPool.allocate_page_of_ne hfree]
      exact h.store.header_page
    rw [updateRootPageNum_succeeds htwo hfirst, Option.some.injEq, Prod.mk.injEq,
      Prod.mk.injEq] at hexec
    exact hrc' hexec.1.1.symm

/-- **A later failure leaves a trace.** In the empty tree the new root stays, in another tree the
link of the leaf that was split. -/
theorem FailsCleanly.le {height : ℕ} {C : Set (K × RID)}
    (h : Represents InTree pos header s height C) (hrc : rc ≠ .success) {rc₀ : RC}
    {header₀ : IndexFileHeader} {calls : ℕ} {s₀ : FlatPool (IndexPage K)} {t₀ : Marks}
    (hrun : exec (failing tracked 0 rc) (insertEntry comparator fuel key rid) header (0, s, t) =
      some ((rc₀, header₀), (calls, s₀, t₀))) (hcalls : k ≤ calls)
    (hpath : pathToLeaf comparator fuel header s key = some path)
    (hclean : FailsCleanly comparator fuel key rid header s t k rc) : k ≤ path.length + 1 := by
  by_contra hlt
  obtain ⟨rc', header', c', s', t', hexec, hrc', hsame, hpins⟩ := hclean
  rcases h with ⟨hempty, -⟩ | ⟨g, hinv, -, -⟩
  · obtain rfl : [] = path := by
      rw [pathToLeaf, if_pos hempty.root] at hpath
      exact Option.some.inj hpath
    rw [List.length_nil] at hlt
    exact hempty.not_failsCleanly hrc (by omega)
      ⟨rc', header', c', s', t', hexec, hrc', hsame, hpins⟩
  · have hroot := hinv.tree.root_ne_invalid
    rw [pathToLeaf, if_neg hroot] at hpath
    obtain ⟨q, n, t₁, hq, hn, hfind, -⟩ := (findLeaf_failing (k := k) (t := t) hrc hroot hpath).2
      (by omega)
    have hsplits := splits_of_run hrc hroot hpath hrun (by omega) hq hn
    obtain ⟨hmem, d, hbelow⟩ := hinv.getLast_path hpath hq hinv.tree.root_mem Below.root
    obtain ⟨hpoints, hne⟩ := hinv.leafPoints hmem hn path.length t₁
    rcases hleaf : exec (failing tracked k rc)
      (insertEntryIntoLeafNode comparator fuel q key rid) header (path.length, s, t₁) with _ | ⟨⟨a, header₁⟩, st₁⟩
    · simp [insertEntry, exec_isEmpty_of_ne hroot, hfind, hleaf] at hexec
    obtain ⟨-, -, m, hm, hnext⟩ := insertEntryIntoLeafNode_links hrc (by omega) hpoints
      hn hsplits hleaf
    have hpages : s'.page q = .leaf m := by
      obtain ⟨c₁, s₁, t₂⟩ := st₁
      by_cases ha : a = .success <;>
        simp [insertEntry, exec_isEmpty_of_ne hroot, hfind, hleaf, ha] at hexec
      · obtain ⟨-, -, rfl, -⟩ := hexec
        exact hm
      · obtain ⟨-, -, rfl, -⟩ := hexec
        exact hm
    have hsibling := (hsame.siblings q ⟨hroot, d, hbelow⟩).1
    rw [hpages, hn] at hsibling
    exact hne (hsibling.symm.trans hnext)

end indexes

/-! ## Runs -/

section runs

/-- **When a failed insert changes nothing.** After any run on a new index, of any capacities, an
insert is made in which one buffer pool call fails. If the call is one of those up to the first
after `find_leaf`, the insert reports an error and the tree and the pins are as before. On the trees
whose nodes are large enough to be halved, it is so for no other call. -/
theorem failed_insert {type : AttrType} (internalMaxSize leafMaxSize : Int) (runFuel : ℕ)
    (ops : List (EntryOp type.KeyValue)) {rcs : RC × List RC} {header : IndexFileHeader}
    {s : FlatPool (IndexPage (IndexKey type.KeyValue))} {t : Marks}
    (hrun : exec tracked (createAndRunOps type internalMaxSize leafMaxSize runFuel ops) default
      (.created, .quiet) = some ((rcs, header), (s, t)))
    (userKey : type.KeyValue) (rid : RID) (fuel : ℕ) (rc : RC) (hrc : rc ≠ .success)
    {rc₀ : RC} {header₀ : IndexFileHeader} {calls : ℕ}
    {s₀ : FlatPool (IndexPage (IndexKey type.KeyValue))} {t₀ : Marks}
    (hinsert : exec (failing tracked 0 rc) (insertEntry (keyComparator type.compare) fuel
      ⟨userKey, rid⟩ rid)
      header (0, s, t) = some ((rc₀, header₀), (calls, s₀, t₀)))
    (k : ℕ) (hk : 0 < k) (hcalls : k ≤ calls) :
    ∃ path, pathToLeaf (keyComparator type.compare) fuel header s ⟨userKey, rid⟩ = some path ∧
      (k ≤ path.length + 1 →
        FailsCleanly (keyComparator type.compare) fuel ⟨userKey, rid⟩ rid header s t k rc) ∧
      (6 ≤ (newFileHeader type.attrLength internalMaxSize leafMaxSize).internalMaxSize →
        4 ≤ (newFileHeader type.attrLength internalMaxSize leafMaxSize).leafMaxSize →
        ∀ {B : Type} [LinearOrder B] [BoundedOrder B] (InTree : IndexKey type.KeyValue → Prop)
          (pos : IndexKey type.KeyValue → B), KeyOrder (keyComparator type.compare) InTree pos →
        (∀ op ∈ ops, InTree op.makeKey) → ops.length ≤ runFuel →
        FailsCleanly (keyComparator type.compare) fuel ⟨userKey, rid⟩ rid header s t k rc →
        k ≤ path.length + 1) := by
  obtain ⟨path, hpath, hclean⟩ := failsCleanly_of_le hrc hinsert hk hcalls
  refine ⟨path, hpath, hclean, ?_⟩
  intro hinternal hleaf B _ _ InTree pos ho hops hfuel hfails
  obtain ⟨s₁, hcreate, h₁⟩ := create_emptyInv (K := IndexKey type.KeyValue) hinternal hleaf default
  have hkeys : ∀ op ∈ ops.map EntryOp.toIndexOp, InTree op.key := by
    intro o ho
    obtain ⟨op, hop, rfl⟩ := List.mem_map.mp ho
    rw [op.key_toIndexOp]
    exact hops op hop
  obtain ⟨-, rcs', header', s', C, hrun', hrep⟩ := pins_runOps ho (ops.map EntryOp.toIndexOp)
    (Or.inl ⟨h₁, rfl⟩ : Represents InTree pos _ s₁ 0 ∅) hkeys (by simpa using hfuel)
  have hflat : exec flat (createAndRunOps type internalMaxSize leafMaxSize runFuel ops) default
      .created = some (((.success, rcs'), header'), s') := by
    simp [createAndRunOps, hcreate, hrun']
  rw [exec_flat_of_tracked hrun, Option.some.injEq, Prod.mk.injEq, Prod.mk.injEq] at hflat
  obtain ⟨⟨-, rfl⟩, rfl⟩ := hflat
  exact hfails.le hrep hrc hinsert hcalls hpath

/-- Four keys, which fill the root leaf of an index with small nodes. -/
def fullLeaf : List (EntryOp Int) :=
  [.insertEntry 1 ⟨1, 1⟩, .insertEntry 2 ⟨1, 2⟩, .insertEntry 3 ⟨1, 3⟩, .insertEntry 4 ⟨1, 4⟩]

/-- The insert of a fifth key makes four calls. The third one is the allocation of the new root. -/
theorem exec_fullLeaf : ∃ rcs header s t rc₀ header₀ s₀ t₀ rc₃ header₃ c₃ s₃ t₃,
    exec tracked (createAndRunOps .ints 6 4 4 fullLeaf) default (.created, .quiet) =
      some ((rcs, header), (s, t)) ∧
    exec (failing tracked 0 .bufferpoolNobuf)
      (insertEntry (keyComparator compareInt) 4 ⟨5, ⟨1, 5⟩⟩ ⟨1, 5⟩) header (0, s, t) =
      some ((rc₀, header₀), (4, s₀, t₀)) ∧
    exec (failing tracked 3 .bufferpoolNobuf)
      (insertEntry (keyComparator compareInt) 4 ⟨5, ⟨1, 5⟩⟩ ⟨1, 5⟩) header (0, s, t) =
      some ((rc₃, header₃), (c₃, s₃, t₃)) ∧
    header.rootPage = 2 ∧ (s.page 2).next = -1 ∧ (s₃.page 2).next = 3 ∧
    pathToLeaf (keyComparator compareInt) 4 header s ⟨5, ⟨1, 5⟩⟩ = some [2] := by
  have hcompute : ((exec flat (createAndRunOps .ints 6 4 4 fullLeaf) default .created).bind fun r =>
      (exec (failing flat 0 .bufferpoolNobuf)
        (insertEntry (keyComparator compareInt) 4 ⟨5, ⟨1, 5⟩⟩ ⟨1, 5⟩) r.1.2 (0, r.2)).bind fun r₀ =>
      (exec (failing flat 3 .bufferpoolNobuf)
        (insertEntry (keyComparator compareInt) 4 ⟨5, ⟨1, 5⟩⟩ ⟨1, 5⟩) r.1.2 (0, r.2)).map fun r₃ =>
      (r₀.2.1, r.1.2.rootPage, (r.2.page 2).next, (r₃.2.2.page 2).next,
        pathToLeaf (keyComparator compareInt) 4 r.1.2 r.2 ⟨5, ⟨1, 5⟩⟩)) =
      some (4, 2, -1, 3, some [2]) := by
    decide
  obtain ⟨⟨⟨rcs, header⟩, s⟩, hrun, hcompute⟩ := Option.bind_eq_some_iff.mp hcompute
  obtain ⟨⟨⟨rc₀, header₀⟩, c₀, s₀⟩, hrun₀, hcompute⟩ := Option.bind_eq_some_iff.mp hcompute
  obtain ⟨⟨⟨rc₃, header₃⟩, c₃, s₃⟩, hrun₃, hvalues⟩ := Option.map_eq_some_iff.mp hcompute
  simp only [Prod.mk.injEq] at hvalues
  obtain ⟨rfl, hroot, hnext, hnext₃, hpath⟩ := hvalues
  obtain ⟨t, ht⟩ := exec_tracked_of_flat .quiet hrun
  obtain ⟨t₀, ht₀⟩ := exec_failing_of_flat t hrun₀
  obtain ⟨t₃, ht₃⟩ := exec_failing_of_flat t hrun₃
  exact ⟨_, _, _, _, _, _, _, _, _, _, _, _, _, ht, ht₀, ht₃, hroot, hnext, hnext₃, hpath⟩

/-- The allocation in the insert of the fifth key fails. -/
theorem failed_insert_run : ∃ rcs header s t,
    exec tracked (createAndRunOps .ints 6 4 4 fullLeaf) default (.created, .quiet) =
      some ((rcs, header), (s, t)) ∧
    FailsCleanly (keyComparator compareInt) 4 ⟨5, ⟨1, 5⟩⟩ ⟨1, 5⟩ header s t 2 .bufferpoolNobuf := by
  obtain ⟨rcs, header, s, t, _, _, _, _, _, _, _, _, _, hrun, hinsert, -, -, -, -, hpath⟩ :=
    exec_fullLeaf
  obtain ⟨path, hpath', hclean, -⟩ := @failed_insert .ints 6 4 4 _ _ _ _ _ hrun 5 ⟨1, 5⟩ 4
    .bufferpoolNobuf (by decide) _ _ _ _ _ hinsert 2 (by decide) (by decide)
  obtain rfl : [2] = path := Option.some.inj (hpath.symm.trans hpath')
  exact ⟨rcs, header, s, t, hrun, hclean (by decide)⟩

/-- **A failed insert that moves entries.** The allocation of the new root fails after the leaf on
page 2 has been split: it is now linked to page 3, to which nothing else refers. -/
theorem failed_insert_moves_entries : ∃ rcs header s t r,
    exec tracked (createAndRunOps .ints 6 4 4 fullLeaf) default (.created, .quiet) =
      some ((rcs, header), (s, t)) ∧
    exec (failing tracked 0 .bufferpoolNobuf)
      (insertEntry (keyComparator compareInt) 4 ⟨5, ⟨1, 5⟩⟩ ⟨1, 5⟩) header (0, s, t) = some r ∧
    3 ≤ r.2.1 ∧
    ¬ FailsCleanly (keyComparator compareInt) 4 ⟨5, ⟨1, 5⟩⟩ ⟨1, 5⟩ header s t 3 .bufferpoolNobuf := by
  obtain ⟨rcs, header, s, t, _, _, _, _, _, _, _, s₃, _, hrun, hinsert, hfailed, hroot, hnext,
    hnext₃, -⟩ := exec_fullLeaf
  refine ⟨rcs, header, s, t, _, hrun, hinsert, Nat.le_succ 3, ?_⟩
  rintro ⟨rc', header', c', s', t', hexec, -, hsame, -⟩
  obtain rfl : s₃ = s' := by
    simpa using congrArg (fun r => r.map fun r => r.2.2.1) (hfailed.symm.trans hexec)
  have hsibling := (hsame.siblings 2 ⟨by rw [hroot]; decide, 0, hroot ▸ Below.root⟩).1
  rw [hnext, hnext₃] at hsibling
  exact absurd hsibling (by decide)

end runs

end Miniob.Storage.Index
