import Miniob.Storage.Index.DeleteEntry
import Miniob.Storage.Index.InsertEntry
import Miniob.Storage.Index.Reference

/-!
# An index is a sorted set

Sequences of operations on an index that `create` has made, compared with the reference of
`SortedSet`.

* `op_ok`: one operation returns the code of the reference and leaves a file that represents the
  set of the reference. `runOps_ok`: so does a sequence.
* `printLeafs_ok`: the leaves in their order hold the entries of the set in their order.
* `findLeaf_holds`: the search leads to the leaf that holds a present key.
-/

namespace Miniob.Storage.Index

open Miniob.Lib
open Miniob.Storage.BufferPool (FlatPool flat)

variable {K : Type}

/-- An operation on the file. -/
def IndexOp.run [Inhabited K] (comparator : K → K → Int) (fuel : ℕ) : IndexOp K → TreeM K RC
  | insertEntry key rid => Index.insertEntry comparator fuel key rid
  | deleteEntry key => Index.deleteEntry comparator fuel key

/-- A sequence of operations on the file, with the codes they return. -/
def runOps [Inhabited K] (comparator : K → K → Int) (fuel : ℕ) :
    List (IndexOp K) → TreeM K (List RC)
  | [] => pure []
  | op :: ops => do
    let rc ← op.run comparator fuel
    let rcs ← runOps comparator fuel ops
    return rc :: rcs

variable [LinearOrder K] {comparator : K → K → Int} {InTree : K → Prop}
  {header : IndexFileHeader} {s : FlatPool (IndexPage K)} {g : Ghost (WithBot (WithTop K))}
  {C : SortedSet K} {fuel height : ℕ}

/-- The file represents the sorted set. -/
def RepresentsSet (InTree : K → Prop) (header : IndexFileHeader) (s : FlatPool (IndexPage K))
    (height : ℕ) (C : SortedSet K) : Prop :=
  Represents InTree place header s height {e | e ∈ C.entries}

/-! ## Operations -/

/-- A leaf is not empty. -/
theorem IndexInv.entries_ne_nil (h : IndexInv InTree place header s g none none) {q : Int}
    (hq : q ∈ g.nodes) (hl : g.level q = 0) : (view s).entries q ≠ [] := by
  obtain ⟨n, -, hE, -, hs⟩ := h.exists_leaf hq hl
  have hfour := h.sizes.four_le 0
  have hsize : 1 ≤ (view s).size q := by
    by_cases hr : q = header.rootPage
    · have := h.sizes.ge_root
      rwa [← hr, if_pos hl] at this
    · have := h.sizes.ge_half q hq hr
      rw [hl] at this
      simp only [reduceCtorEq, if_false] at this
      omega
  rw [hE]
  rintro hnil
  rw [hs, hnil] at hsize
  simp at hsize

/-- A tree with a root has an entry. -/
theorem RepresentsSet.root_iff (h : RepresentsSet InTree header s height C) :
    header.rootPage = bpInvalidPageNum ↔ C.entries = [] := by
  rcases h with ⟨hempty, hC⟩ | ⟨g, hinv, hC, -⟩
  · refine iff_of_true hempty.root (List.eq_nil_iff_forall_not_mem.mpr fun e he => ?_)
    exact Set.eq_empty_iff_forall_notMem.mp hC e he
  · refine iff_of_false hinv.tree.root_ne_invalid fun hnil => ?_
    obtain ⟨q, hq, hl, -, -⟩ := leftMostPage_ok hinv.tree.toNodeInv _ (Nat.lt_succ_self _)
    obtain ⟨e, he⟩ := List.exists_mem_of_ne_nil _ (hinv.entries_ne_nil hq hl)
    have := (hC e).mpr ⟨q, hq, he⟩
    simp [hnil] at this

variable [Inhabited K]

/-- **One operation.** It returns the code of the reference and does to the file what the reference
does to the set. -/
theorem op_ok (ho : OrdersKeys comparator InTree) (fuel : ℕ) (op : IndexOp K)
    (h : RepresentsSet InTree header s height C) (hkey : InTree op.key) (hfuel : height ≤ fuel) :
    ∃ header' s', exec flat (op.run comparator fuel) header s =
        some (((op.reference C).1, header'), s') ∧
      RepresentsSet InTree header' s' (height + 1) (op.reference C).2 ∧
      header'.leafMaxSize = header.leafMaxSize ∧
      header'.internalMaxSize = header.internalMaxSize := by
  cases op with
  | insertEntry key rid =>
      simp only [IndexOp.run, IndexOp.reference]
      rw [IndexOp.key] at hkey
      rcases insertEntry_ok ho.keyOrder h hkey hfuel with ⟨⟨e, he, hpos⟩, hexec⟩ |
        ⟨hnew, header', s', hexec, hrep, hl, hi⟩
      · have hmem : C.Contains key := ⟨e, he, place_inj.mp hpos⟩
        rw [dif_pos hmem]
        exact ⟨header, s, hexec, h.succ, rfl, rfl⟩
      · have hmem : ¬ C.Contains key := by
          rintro ⟨e, he, heq⟩
          exact hnew e he (by rw [heq])
        rw [dif_neg hmem]
        refine ⟨header', s', hexec, ?_, hl, hi⟩
        have hset : {e | e ∈ (C.insert key rid hmem).entries} =
            insert (key, rid) {e | e ∈ C.entries} := by
          ext e
          simp
        rw [RepresentsSet, hset]
        exact hrep
  | deleteEntry key =>
      simp only [IndexOp.run, IndexOp.reference]
      rw [IndexOp.key] at hkey
      rcases deleteEntry_ok ho.keyOrder fuel h hkey hfuel with ⟨hnot, hexec⟩ |
        ⟨e, he, hpos, header', s', hexec, hrep, hl, hi⟩
      · have hmem : ¬ C.Contains key := by
          rintro ⟨e, he, heq⟩
          exact hnot e he (by rw [heq])
        rw [if_neg hmem]
        refine ⟨header, s, ?_, h.succ, rfl, rfl⟩
        simpa only [h.root_iff] using hexec
      · have hkey := place_inj.mp hpos
        rw [if_pos ⟨e, he, hkey⟩]
        refine ⟨header', s', hexec, ?_, hl, hi⟩
        have hset : {f | f ∈ (C.erase key).entries} = {f | f ∈ C.entries} \ {e} := by
          ext f
          simp only [SortedSet.mem_erase, Set.mem_ofPred_eq, Set.mem_sdiff, Set.mem_singleton_iff]
          refine and_congr_right fun hf => not_congr ⟨fun heq => ?_, fun heq => heq ▸ hkey⟩
          exact SortedSet.eq_of_key_eq hf he (heq.trans hkey.symm)
        rw [RepresentsSet, hset]
        exact hrep.succ

/-- **A sequence of operations.** -/
theorem runOps_ok (ho : OrdersKeys comparator InTree) (ops : List (IndexOp K))
    (h : RepresentsSet InTree header s height C) (hkeys : ∀ op ∈ ops, InTree op.key) (fuel : ℕ)
    (hfuel : height + ops.length ≤ fuel) :
    ∃ header' s', exec flat (runOps comparator fuel ops) header s =
        some (((reference ops C).1, header'), s') ∧
      RepresentsSet InTree header' s' (height + ops.length) (reference ops C).2 ∧
      header'.leafMaxSize = header.leafMaxSize ∧
      header'.internalMaxSize = header.internalMaxSize := by
  induction ops generalizing header s height C with
  | nil => exact ⟨header, s, rfl, h, rfl, rfl⟩
  | cons op ops ih =>
      rw [List.length_cons] at hfuel
      obtain ⟨header₁, s₁, hexec, h₁, hl₁, hi₁⟩ :=
        op_ok ho fuel op h (hkeys op (by simp)) (by omega)
      obtain ⟨header', s', hrun, h', hl', hi'⟩ :=
        ih h₁ (fun o hm => hkeys o (by simp [hm])) (by omega)
      refine ⟨header', s', ?_, ?_, hl'.trans hl₁, hi'.trans hi₁⟩
      · simp [runOps, hexec, hrun, reference]
      · rw [List.length_cons, Nat.add_comm ops.length 1, ← Nat.add_assoc]
        exact h'

/-! ## Reading the leaves -/

section leaves

omit [Inhabited K]

/-- The entries of a leaf are those of the set that lie in its interval, in order. -/
theorem TreeInv.entries_eq {v : View K} {root : Int} (h : TreeInv InTree place v g root none)
    (hC : ∀ e, e ∈ C.entries ↔ Holds v g e) {q : Int} (hq : q ∈ g.nodes) (hl : g.level q = 0) :
    v.entries q = C.entries.filter fun e => g.lo q ≤ place e.1 ∧ place e.1 < g.hi q := by
  have hsorted : (v.entries q).Pairwise fun e f => e.1 < f.1 :=
    (h.sorted q hq).imp fun hlt => place_lt_place.mp hlt
  have : Std.Antisymm fun e f : K × RID => e.1 < f.1 := ⟨fun _ _ h₁ h₂ => absurd h₁ h₂.not_gt⟩
  have : Std.Irrefl fun e f : K × RID => e.1 < f.1 := ⟨fun _ => lt_irrefl _⟩
  refine hsorted.eq_of_mem_iff (C.sorted.sublist List.filter_sublist) fun e => ?_
  rw [List.mem_filter, decide_eq_true_iff, hC]
  constructor
  · intro he
    exact ⟨⟨q, hq, he⟩, (h.entry q hq e he).2⟩
  · rintro ⟨he, hlo, hhi⟩
    exact h.mem_entries hq hl he hlo hhi

/-- A sorted list cut at a point. -/
theorem SortedSet.filter_append (C : SortedSet K) {a b : WithBot (WithTop K)} (hab : a ≤ b) :
    (C.entries.filter fun e => a ≤ place e.1 ∧ place e.1 < b) ++
      (C.entries.filter fun e => b ≤ place e.1) = C.entries.filter fun e => a ≤ place e.1 := by
  have hs := C.sorted
  generalize C.entries = l at hs ⊢
  induction l with
  | nil => rfl
  | cons e l ih =>
      rw [List.pairwise_cons] at hs
      by_cases hb : b ≤ place e.1
      · -- everything from here on is at or above the cut
        have hall : ∀ f ∈ e :: l, b ≤ place f.1 := by
          intro f hf
          rcases List.mem_cons.mp hf with rfl | hf
          · exact hb
          · exact hb.trans (place_lt_place.mpr (hs.1 f hf)).le
        have hnone : (e :: l).filter (fun e => a ≤ place e.1 ∧ place e.1 < b) = [] :=
          List.filter_eq_nil_iff.mpr fun f hf => by simp [(hall f hf).not_gt]
        rw [hnone, List.nil_append]
        exact List.filter_congr fun f hf => by simp [hall f hf, hab.trans (hall f hf)]
      · by_cases ha : a ≤ place e.1
        · simp only [List.filter_cons, ha, not_le.mp hb, hb, and_self, decide_true, decide_false,
            if_true, Bool.false_eq_true, if_false, List.cons_append, ih hs.2]
        · simp only [List.filter_cons, ha, hb, false_and, decide_false, Bool.false_eq_true,
            if_false, ih hs.2]

/-- The walk along the leaves reads the entries from the leaf's lower bound on. By induction on the
number of these entries: no leaf is empty. -/
theorem printLeafsLoop_ok (h : IndexInv InTree place header s g none none)
    (hC : ∀ e, e ∈ C.entries ↔ Holds (view s) g e) {q : Int} (hq : q ∈ g.nodes)
    (hl : g.level q = 0)
    (hfuel : (C.entries.filter fun e => g.lo q ≤ place e.1).length ≤ fuel) :
    exec flat (printLeafsLoop fuel q) header s =
      some (((.success, C.entries.filter fun e => g.lo q ≤ place e.1), header), s) := by
  induction fuel generalizing q with
  | zero =>
      obtain ⟨e, he⟩ := List.exists_mem_of_ne_nil _ (h.entries_ne_nil hq hl)
      have hmem : e ∈ C.entries.filter fun e => g.lo q ≤ place e.1 := by
        simpa using ⟨(hC e).mpr ⟨q, hq, he⟩, (h.tree.entry q hq e he).2.1⟩
      rw [List.eq_nil_of_length_eq_zero (Nat.le_zero.mp hfuel)] at hmem
      cases hmem
  | succ fuel ih =>
      obtain ⟨n, hn, hE, -, -⟩ := h.exists_leaf hq hl
      have hcut := C.filter_append (h.tree.lo_lt_hi q hq).le
      rw [← h.tree.entries_eq hC hq hl, hE] at hcut
      have hnext := h.tree.next q hq hl
      have hne := h.entries_ne_nil hq hl
      rw [hE] at hne
      simp only [view, hn, IndexPage.next] at hnext
      rcases hnext with ⟨htop, hend⟩ | ⟨hmem, hl', hlo, -⟩
      · have hnone : (C.entries.filter fun e => g.hi q ≤ place e.1) = [] :=
          List.filter_eq_nil_iff.mpr fun e _ => by simp [htop, (place_lt_top e.1).not_ge]
        rw [hnone, List.append_nil] at hcut
        simp [printLeafsLoop, hn, hend, hcut]
      · have hvalid : n.nextBrother ≠ bpInvalidPageNum := fun heq => by
          have := h.tree.nonneg _ hmem
          rw [heq, bpInvalidPageNum] at this
          omega
        have hlen := congrArg List.length hcut
        have hpos := List.length_pos_of_ne_nil hne
        rw [List.length_append, ← hlo] at hlen
        have hrec := ih hmem hl' (by omega)
        rw [hlo] at hrec
        simp [printLeafsLoop, hn, hvalid, hrec, ← hcut]

/-- **The leaves in order hold the set in order.** -/
theorem printLeafs_ok (h : RepresentsSet InTree header s height C) (hfuel : height ≤ fuel)
    (hlength : C.entries.length ≤ fuel) :
    exec flat (printLeafs fuel) header s = some (((.success, C.entries), header), s) := by
  have hroot := h.root_iff
  rcases h with ⟨hempty, -⟩ | ⟨g, hinv, hC, hlt⟩
  · simp [printLeafs, isEmpty, hempty.root, hroot.mp hempty.root]
  · obtain ⟨q, hq, hl, hlo, hexec⟩ := leftMostPage_ok hinv.tree.toNodeInv fuel (by omega)
    have hall : (C.entries.filter fun e => g.lo q ≤ place e.1) = C.entries :=
      List.filter_eq_self.mpr fun e _ => by simp [hlo]
    have hloop := printLeafsLoop_ok hinv hC hq hl (hall.symm ▸ hlength)
    rw [hall] at hloop
    simp [printLeafs, isEmpty, hinv.tree.root_ne_invalid, hexec, hloop]

/-- **`find_leaf` leads to the leaf that holds a present key.** -/
theorem findLeaf_holds (ho : OrdersKeys comparator InTree)
    (h : RepresentsSet InTree header s height C) (hfuel : height ≤ fuel) {e : K × RID}
    (he : e ∈ C.entries) :
    ∃ q n, exec flat (findLeaf comparator fuel e.1) header s = some (((.success, q), header), s) ∧
      s.page q = .leaf n ∧ e ∈ n.items := by
  rcases h with ⟨-, hC⟩ | ⟨g, hinv, hC, hlt⟩
  · exact absurd he (Set.eq_empty_iff_forall_notMem.mp hC e)
  · have hholds := (hC e).mp he
    obtain ⟨p, hp, hep⟩ := hholds
    obtain ⟨q, hq, hl, ⟨hlo, hhi⟩, hexec⟩ :=
      findLeaf_ok ho.keyOrder hinv.tree.toNodeInv fuel (by omega) (hinv.tree.entry p hp e hep).1
    obtain ⟨n, hn, hE, -, -⟩ := hinv.exists_leaf hq hl
    exact ⟨q, n, hexec, hn, hE ▸ hinv.tree.mem_entries hq hl ⟨p, hp, hep⟩ hlo hhi⟩

end leaves

/-! ## From an empty file -/

section create

omit [Inhabited K]

omit [LinearOrder K] in
/-- `create` makes an index without a root in a new file. -/
theorem create_emptyInv {attrLength internalMaxSize leafMaxSize : Int}
    (hinternal : 6 ≤ (newFileHeader attrLength internalMaxSize leafMaxSize).internalMaxSize)
    (hleaf : 4 ≤ (newFileHeader attrLength internalMaxSize leafMaxSize).leafMaxSize)
    (header : IndexFileHeader) :
    ∃ s : FlatPool (IndexPage K),
      exec flat (create attrLength internalMaxSize leafMaxSize) header .created =
        some ((.success, newFileHeader attrLength internalMaxSize leafMaxSize), s) ∧
      EmptyInv (newFileHeader attrLength internalMaxSize leafMaxSize) s := by
  have hfree : (FlatPool.created : FlatPool (IndexPage K)).freePage = 1 := by
    simp [FlatPool.freePage, FlatPool.created]
  refine ⟨FlatPool.created.allocate.set firstIndexPage
    (.header (newFileHeader attrLength internalMaxSize leafMaxSize)), ?_, rfl, hleaf,
    hinternal, ⟨by simp, fun i hi => ?_, ?_, by simp⟩⟩
  · simp [create, hfree, firstIndexPage]
  · simp only [FlatPool.set_pageCount, FlatPool.set_bitmap, FlatPool.allocate, hfree] at hi ⊢
    rw [Function.update_of_ne (by omega)]
    simp only [FlatPool.created, decide_eq_false_iff_not]
    omega
  · simp only [FlatPool.allocated_set, FlatPool.allocated_allocate, hfree, firstIndexPage]
    exact ⟨Or.inl ⟨le_rfl, rfl⟩, Or.inr rfl⟩

/-- `create` makes an empty index in a new file. -/
theorem create_ok (InTree : K → Prop) {attrLength internalMaxSize leafMaxSize : Int}
    (hinternal : 6 ≤ (newFileHeader attrLength internalMaxSize leafMaxSize).internalMaxSize)
    (hleaf : 4 ≤ (newFileHeader attrLength internalMaxSize leafMaxSize).leafMaxSize)
    (header : IndexFileHeader) :
    ∃ s, exec flat (create attrLength internalMaxSize leafMaxSize) header .created =
        some ((.success, newFileHeader attrLength internalMaxSize leafMaxSize), s) ∧
      RepresentsSet (K := K) InTree (newFileHeader attrLength internalMaxSize leafMaxSize) s 0
        .empty := by
  obtain ⟨s, hexec, hempty⟩ := create_emptyInv (K := K) hinternal hleaf header
  exact ⟨s, hexec, Or.inl ⟨hempty, by simp [SortedSet.empty]⟩⟩

end create

/-- The operations of an index on attribute values. -/
inductive EntryOp (A : Type)
  /-- `insert_entry(user_key, rid)` -/
  | insertEntry (userKey : A) (rid : RID)
  /-- `delete_entry(user_key, rid)` -/
  | deleteEntry (userKey : A) (rid : RID)
  deriving DecidableEq, Repr

/-- The key an operation makes. Source: `bplus_tree.cpp`, `BplusTreeHandler::make_key` -/
def EntryOp.makeKey {A : Type} : EntryOp A → IndexKey A
  | insertEntry userKey rid => ⟨userKey, rid⟩
  | deleteEntry userKey rid => ⟨userKey, rid⟩

/-- The operation on keys. -/
def EntryOp.toIndexOp {A : Type} (op : EntryOp A) : IndexOp (IndexKey A) :=
  match op with
  | insertEntry _ rid => .insertEntry op.makeKey rid
  | deleteEntry _ _ => .deleteEntry op.makeKey

theorem EntryOp.key_toIndexOp {A : Type} (op : EntryOp A) : op.toIndexOp.key = op.makeKey := by
  cases op <;> rfl

/-- No difference of two attribute values overflows and all record identifiers are in range. -/
structure IntsComparable (ops : List (EntryOp Int)) : Prop where
  /-- Differences fit in 32 bits. -/
  diff : ∀ a ∈ ops, ∀ b ∈ ops, -2147483648 ≤ a.makeKey.attr - b.makeKey.attr ∧
    a.makeKey.attr - b.makeKey.attr ≤ 2147483647
  /-- Record identifiers are in range. -/
  rid : ∀ a ∈ ops, RIDInRange a.makeKey.rid

/-- The operations of a sequence that `IntsComparable` admits have comparable keys. -/
theorem IntsComparable.orders {ops : List (EntryOp Int)} (h : IntsComparable ops) :
    OrdersKeys (keyComparator compareInt) fun k => ∃ op ∈ ops, op.makeKey = k := by
  refine compareInt_orders ?_ ?_
  · rintro _ _ ⟨a, ha, rfl⟩ ⟨b, hb, rfl⟩
    exact h.diff a ha b hb
  · rintro _ ⟨a, ha, rfl⟩
    exact h.rid a ha

/-- Make an index and run operations on it. -/
def createAndRun (internalMaxSize leafMaxSize : Int) (fuel : ℕ) (ops : List (EntryOp Int)) :
    TreeM (IndexKey Int) (RC × List RC) := do
  let rc ← create 4 internalMaxSize leafMaxSize
  let rcs ← runOps (keyComparator compareInt) fuel (ops.map EntryOp.toIndexOp)
  return (rc, rcs)

omit [Inhabited K] in
/-- The number of entries is at most the number of operations. -/
theorem length_reference_run_le (ops : List (IndexOp K)) (C : SortedSet K) :
    (reference ops C).2.entries.length ≤ C.entries.length + ops.length := by
  induction ops generalizing C with
  | nil => simp [reference]
  | cons op ops ih =>
      have h₁ := length_reference_le op C
      have h₂ := ih (op.reference C).2
      simp only [reference, List.length_cons]
      omega

/-- **An `INTS` index is a sorted set.** Whatever the operations, the codes they return are those
of the reference, the leaves from the leftmost one on hold the entries of the reference, and
`find_leaf` leads to the leaf that holds a present pair. -/
theorem index_refines_sorted_set (internalMaxSize leafMaxSize : Int)
    (hinternal : 6 ≤ (newFileHeader 4 internalMaxSize leafMaxSize).internalMaxSize)
    (hleaf : 4 ≤ (newFileHeader 4 internalMaxSize leafMaxSize).leafMaxSize)
    (ops : List (EntryOp Int)) (hops : IntsComparable ops) (fuel : ℕ) (hfuel : ops.length ≤ fuel)
    (header₀ : IndexFileHeader) :
    ∃ header s, exec flat (createAndRun internalMaxSize leafMaxSize fuel ops) header₀ .created =
        some (((.success, (reference (ops.map EntryOp.toIndexOp) .empty).1), header), s) ∧
      exec flat (printLeafs fuel) header s = some (((.success,
        (reference (ops.map EntryOp.toIndexOp) .empty).2.entries), header), s) ∧
      ∀ e ∈ (reference (ops.map EntryOp.toIndexOp) .empty).2.entries, ∃ leaf n,
        exec flat (findLeaf (keyComparator compareInt) fuel e.1) header s =
          some (((.success, leaf), header), s) ∧ s.page leaf = .leaf n ∧ e ∈ n.items := by
  have ho := hops.orders
  obtain ⟨s₀, hcreate, h₀⟩ :=
    create_ok (fun k => ∃ op ∈ ops, op.makeKey = k) hinternal hleaf header₀
  obtain ⟨header, s, hrun, h, -⟩ := runOps_ok ho (ops.map EntryOp.toIndexOp) h₀ (fun o ho => by
    obtain ⟨op, hop, rfl⟩ := List.mem_map.mp ho
    exact ⟨op, hop, op.key_toIndexOp.symm⟩) fuel (by simpa using hfuel)
  rw [List.length_map, Nat.zero_add] at h
  have hlength := length_reference_run_le (ops.map EntryOp.toIndexOp) SortedSet.empty
  rw [List.length_map] at hlength
  refine ⟨header, s, ?_, printLeafs_ok h hfuel ?_, fun e he => findLeaf_holds ho h hfuel he⟩
  · simp [createAndRun, hcreate, hrun]
  · exact hlength.trans (by simpa [SortedSet.empty] using hfuel)

/-- The fifth pair splits the only leaf, the first deletion merges the two leaves again. -/
def splitThenMerge : List (EntryOp Int) :=
  [.insertEntry 5 ⟨1, 0⟩, .insertEntry 3 ⟨1, 1⟩, .insertEntry 5 ⟨1, 2⟩, .insertEntry 1 ⟨1, 3⟩,
    .insertEntry 8 ⟨1, 4⟩, .deleteEntry 3 ⟨1, 1⟩, .insertEntry 5 ⟨1, 2⟩, .deleteEntry 3 ⟨1, 1⟩]

/-- A run on a tree whose leaves hold four pairs. -/
theorem index_refines_sorted_set_run : ∃ header s,
    exec flat (createAndRun 6 4 8 splitThenMerge) default .created =
      some (((.success, [.success, .success, .success, .success, .success, .success,
        .recordDuplicateKey, .recordRecordNotExist]), header), s) ∧
    exec flat (printLeafs 8) header s = some (((.success, [(⟨1, ⟨1, 3⟩⟩, ⟨1, 3⟩),
      (⟨5, ⟨1, 0⟩⟩, ⟨1, 0⟩), (⟨5, ⟨1, 2⟩⟩, ⟨1, 2⟩), (⟨8, ⟨1, 4⟩⟩, ⟨1, 4⟩)]), header), s) := by
  obtain ⟨header, s, hrun, hleaves, -⟩ := index_refines_sorted_set 6 4 (by decide) (by decide)
    splitThenMerge ⟨by decide, by decide⟩ 8 (by decide) default
  exact ⟨header, s, hrun, hleaves⟩

end Miniob.Storage.Index
