import Miniob.Storage.Index.Discipline
import Miniob.Storage.Index.Scan

/-!
# Index runs with evictions

Inserts, deletes, `sync` and scans on an index whose pages may be evicted between any two calls on
the buffer pool.

* `TreeOp.LosesMark`: the operations that let a changed page go without marking it dirty, an insert
  that splits a leaf before another leaf and a delete that merges two leaves.
* `eviction_invisible`: in a run without such operations evictions change nothing.
* `eviction_visible`: a merge that an eviction undoes in part.
-/

namespace Miniob.Storage.Index

open Miniob.Lib
open Miniob.Storage.BufferPool (FlatPool flat tracked evicting CachedPool Marks Handles Agrees
  run_evicting run_tracked_flat)

/-! ## Operations -/

/-- The operations on an `INTS` index. -/
inductive TreeOp
  /-- `insert_entry(user_key, rid)` -/
  | insertEntry (userKey : Int) (rid : RID)
  /-- `delete_entry(user_key, rid)` -/
  | deleteEntry (userKey : Int) (rid : RID)
  /-- `sync()` -/
  | sync
  /-- A scan from `open` to `close`. -/
  | scan (left right : Option (Int × Bool))
  deriving DecidableEq, Repr

/-- What an operation reports. -/
inductive TreeAnswer
  /-- A return code. -/
  | code (rc : RC)
  /-- The codes of `open` and of the last `next_entry`, and what the scan returned. -/
  | scanned (rcOpen rcEnd : RC) (rids : List RID)
  deriving DecidableEq, Repr

/-- An operation on the file. -/
def TreeOp.run (fuel : ℕ) : TreeOp → TreeM (IndexKey Int) TreeAnswer
  | insertEntry userKey rid => do
    return .code (← Index.insertEntry (keyComparator compareInt) fuel ⟨userKey, rid⟩ rid)
  | deleteEntry userKey rid => do
    return .code (← Index.deleteEntry (keyComparator compareInt) fuel ⟨userKey, rid⟩)
  | sync => do
    return .code (← Index.sync)
  | scan left right => do
    let (rcOpen, rcEnd, rids) ← scanInts compareInt fuel left right
    return .scanned rcOpen rcEnd rids

/-- A sequence of operations on the file. -/
def runTree (fuel : ℕ) : List TreeOp → TreeM (IndexKey Int) (List TreeAnswer)
  | [] => pure []
  | op :: ops => do
    let answer ← op.run fuel
    let answers ← runTree fuel ops
    return answer :: answers

/-- Make an index and run operations on it. -/
def createAndRunTree (internalMaxSize leafMaxSize : Int) (fuel : ℕ) (ops : List TreeOp) :
    TreeM (IndexKey Int) (RC × List TreeAnswer) := do
  let rc ← create 4 internalMaxSize leafMaxSize
  let answers ← runTree fuel ops
  return (rc, answers)

/-- The attribute values of an operation. -/
def TreeOp.values : TreeOp → List Int
  | insertEntry userKey _ => [userKey]
  | deleteEntry userKey _ => [userKey]
  | sync => []
  | scan left right => left.toList.map Prod.fst ++ right.toList.map Prod.fst

/-- The record identifier of an operation. -/
def TreeOp.rids : TreeOp → List RID
  | insertEntry _ rid => [rid]
  | deleteEntry _ rid => [rid]
  | _ => []

/-- No difference of two values overflows and all record identifiers are in range. -/
structure RunComparable (ops : List TreeOp) : Prop where
  /-- Differences fit in 32 bits. -/
  diff : ∀ a ∈ ops.flatMap TreeOp.values, ∀ b ∈ ops.flatMap TreeOp.values,
    -2147483648 ≤ a - b ∧ a - b ≤ 2147483647
  /-- Record identifiers are in range. -/
  rid : ∀ r ∈ ops.flatMap TreeOp.rids, RIDInRange r

/-! ## Operations that lose a mark -/

section marks

variable {K : Type} (comparator : K → K → Int) (fuel : ℕ) (header : IndexFileHeader)
  (s : FlatPool (IndexPage K))

/-- The leaf a key belongs to. -/
def leafOf (key : K) : Option Int :=
  match exec flat (findLeaf comparator fuel key) header s with
  | some (((.success, leaf), _), _) => some leaf
  | _ => none

/-- The neighbour a short leaf is merged or balanced with: the child before it, or the one after it
for the first child. -/
def neighborPage (leaf : Int) (n : LeafIndexNode K) : Option Int :=
  match s.page n.parent with
  | .internal N => (N.valueIndex leaf).bind fun index =>
      N.items[if index = 0 then 1 else index - 1]?.map Prod.snd
  | _ => none

/-- The delete leaves the leaf with so few items that they fit in a page with those of its
neighbour. The left one of the two and their parent are changed and not marked. -/
def MergesLeaf (key : K) (leaf : Int) : Prop :=
  match s.page leaf with
  | .leaf n => (n.lookup comparator key).2 = true ∧ n.items.length - 1 < minSize header .leaf ∧
      n.parent ≠ bpInvalidPageNum ∧ ∃ neighbor ∈ neighborPage s leaf n,
        n.items.length - 1 + (s.page neighbor).size ≤ header.leafMaxSize
  | _ => False

end marks

/-- The operation lets a changed page go without marking it dirty. -/
def TreeOp.LosesMark (fuel : ℕ) (header : IndexFileHeader)
    (s : FlatPool (IndexPage (IndexKey Int))) : TreeOp → Prop
  | insertEntry userKey rid =>
    ∃ leaf ∈ leafOf (keyComparator compareInt) fuel header s ⟨userKey, rid⟩,
      SplitsBeforeBrother (keyComparator compareInt) header ⟨userKey, rid⟩ (s.page leaf)
  | deleteEntry userKey rid =>
    ∃ leaf ∈ leafOf (keyComparator compareInt) fuel header s ⟨userKey, rid⟩,
      MergesLeaf (keyComparator compareInt) header s ⟨userKey, rid⟩ leaf
  | _ => False

instance (comparator : IndexKey Int → IndexKey Int → Int) (header : IndexFileHeader)
    (s : FlatPool (IndexPage (IndexKey Int))) (key : IndexKey Int) (leaf : Int) :
    Decidable (MergesLeaf comparator header s key leaf) :=
  match h : s.page leaf with
  | .leaf n => decidable_of_iff ((n.lookup comparator key).2 = true ∧
      n.items.length - 1 < minSize header .leaf ∧ n.parent ≠ bpInvalidPageNum ∧
      ∃ neighbor ∈ neighborPage s leaf n,
        n.items.length - 1 + (s.page neighbor).size ≤ header.leafMaxSize) (by simp [MergesLeaf, h])
  | .internal _ => .isFalse (by simp [MergesLeaf, h])
  | .header _ => .isFalse (by simp [MergesLeaf, h])

instance (fuel : ℕ) (header : IndexFileHeader) (s : FlatPool (IndexPage (IndexKey Int)))
    (op : TreeOp) : Decidable (op.LosesMark fuel header s) :=
  match op with
  | .insertEntry _ _ => inferInstanceAs (Decidable (∃ leaf ∈ _, _))
  | .deleteEntry _ _ => inferInstanceAs (Decidable (∃ leaf ∈ _, _))
  | .sync => inferInstanceAs (Decidable False)
  | .scan _ _ => inferInstanceAs (Decidable False)

/-- No operation of the run loses a mark. -/
def KeepsMarks (fuel : ℕ) : List TreeOp → IndexFileHeader → FlatPool (IndexPage (IndexKey Int)) →
    Prop
  | [], _, _ => True
  | op :: ops, header, s => ¬ op.LosesMark fuel header s ∧
    match exec flat (op.run fuel) header s with
    | some ((_, header'), s') => KeepsMarks fuel ops header' s'
    | none => True

instance decidableKeepsMarks (fuel : ℕ) : (ops : List TreeOp) → (header : IndexFileHeader) →
    (s : FlatPool (IndexPage (IndexKey Int))) → Decidable (KeepsMarks fuel ops header s)
  | [], _, _ => inferInstanceAs (Decidable True)
  | op :: ops, header, s =>
    match h : exec flat (op.run fuel) header s with
    | none => decidable_of_iff (¬ op.LosesMark fuel header s) (by simp [KeepsMarks, h])
    | some r =>
      have := decidableKeepsMarks fuel ops r.1.2 r.2
      decidable_of_iff (¬ op.LosesMark fuel header s ∧ KeepsMarks fuel ops r.1.2 r.2)
        (by simp [KeepsMarks, h])

/-! ## One operation -/

section op

variable {K : Type} [LinearOrder K] {comparator : K → K → Int} {InTree : K → Prop}
  {header : IndexFileHeader} {s : FlatPool (IndexPage K)} {C : SortedSet K} {fuel height : ℕ}
  {key : K}

/-- A search that succeeds ends at a leaf of the tree and changes nothing. -/
theorem RepresentsSet.findLeaf (ho : OrdersKeys comparator InTree)
    (h : RepresentsSet InTree header s height C) (hfuel : height ≤ fuel) (hkey : InTree key)
    {leaf : Int} {header' : IndexFileHeader} {s' : FlatPool (IndexPage K)}
    (hfind : exec flat (findLeaf comparator fuel key) header s =
      some (((.success, leaf), header'), s')) :
    header' = header ∧ s' = s ∧ leafOf comparator fuel header s key = some leaf ∧
      ∃ g, IndexInv InTree place header s g none none ∧ leaf ∈ g.nodes ∧ g.level leaf = 0 := by
  have hleaf : leafOf comparator fuel header s key = some leaf := by
    unfold leafOf
    rw [hfind]
  rcases h with ⟨hempty, -⟩ | ⟨g, hinv, -, hlt⟩
  · unfold Index.findLeaf at hfind
    rw [findLeafInternal_empty hempty.root] at hfind
    simp at hfind
  · obtain ⟨q, hq, hl, -, hexec⟩ := findLeaf_ok ho.keyOrder hinv.tree.toNodeInv fuel (by omega) hkey
    rw [hexec] at hfind
    simp only [Option.some.injEq, Prod.mk.injEq, true_and] at hfind
    obtain ⟨⟨rfl, rfl⟩, rfl⟩ := hfind
    exact ⟨rfl, rfl, hleaf, g, hinv, hq, hl⟩

/-- Inserting keeps the discipline of the handles unless it loses a mark. -/
theorem RepresentsSet.keeps_insertEntry [Inhabited K] (ho : OrdersKeys comparator InTree)
    (h : RepresentsSet InTree header s height C) (hfuel : height ≤ fuel) (hkey : InTree key)
    (rid : RID) (hsafe : ¬ ∃ leaf ∈ leafOf comparator fuel header s key,
      SplitsBeforeBrother comparator header key (s.page leaf)) :
    Keeps [] header s (insertEntry comparator fuel key rid) fun _ L' => L' = [] := by
  refine Index.keeps_insertEntry comparator fuel key rid fun leaf header' s' hfind => ?_
  obtain ⟨rfl, rfl, hleaf, g, hinv, hmem, -⟩ := h.findLeaf ho hfuel hkey hfind
  refine ⟨fun heq => hinv.store.freePage.1 (heq ▸ hmem), fun hsplit => hsafe ⟨leaf, hleaf, hsplit⟩⟩

omit [LinearOrder K] in
/-- The position of a child that is listed once. -/
theorem valueIndex_eq {N : InternalIndexNode K} {l₁ l₂ : List (K × Int)} {k : K} {p : Int}
    (hitems : N.items = l₁ ++ (k, p) :: l₂) (hp : p ∉ l₁.map Prod.snd) :
    N.valueIndex p = some l₁.length := by
  unfold InternalIndexNode.valueIndex
  rw [hitems, List.findIdx?_append, List.findIdx?_eq_none_iff.mpr]
  · simp [List.findIdx?_cons]
  · intro e he
    simp only [decide_eq_false_iff_not]
    rintro rfl
    exact hp (List.mem_map_of_mem he)

/-- Deleting keeps the discipline of the handles unless it loses a mark. -/
theorem RepresentsSet.keeps_deleteEntry (ho : OrdersKeys comparator InTree)
    (h : RepresentsSet InTree header s height C) (hfuel : height ≤ fuel) (hkey : InTree key)
    (hsafe : ¬ ∃ leaf ∈ leafOf comparator fuel header s key,
      MergesLeaf comparator header s key leaf) :
    Keeps [] header s (deleteEntry comparator fuel key) fun _ L' => L' = [] := by
  refine Index.keeps_deleteEntry comparator fuel key fun p header' s' hfind n n' hn hfound hn' hless
    hparent N k e hN hk he => ?_
  obtain ⟨rfl, rfl, hleaf, g, hinv, hp, hl⟩ := h.findLeaf ho hfuel hkey hfind
  obtain ⟨-, -, hE, -, -⟩ := hinv.exists_leaf hp hl
  have hE : (view s').entries p = n.items := by simp [view, hn, IndexPage.entries]
  have hin : ∀ e ∈ n.items, InTree e.1 := fun e he => (hinv.tree.entry p hp e (hE ▸ he)).1
  have hsorted := hinv.tree.sorted p hp
  rw [hE] at hsorted
  rcases leaf_lookup ho.keyOrder hkey n hin hsorted with ⟨l, r, -, -, -, hlookup⟩ |
    ⟨l, a, r, hitems, -, -, -, hlookup⟩
  · rw [hlookup] at hfound
    cases hfound
  · obtain ⟨hinv', -⟩ := hinv.leaf_remove hp hl hn hitems
    have hremove : n' = { n with items := l ++ r } := by
      rw [hn', hlookup, LeafIndexNode.remove, hitems, List.eraseIdx_append_of_length_le le_rfl]
      simp
    have hlen : n'.items.length = n.items.length - 1 := by
      rw [hremove, hitems]
      simp
    have hpar : n'.parent = n.parent := by rw [hremove]
    rw [← hremove] at hinv'
    have hpage : (s'.set p (.leaf n')).page p = .leaf n' := by simp
    -- the search in the parent ends at the leaf
    have hroot : p ≠ header'.rootPage := by
      rintro rfl
      have := hinv'.tree.root_parent
      simp only [view, hpage, IndexPage.parentPageNum] at this
      exact hparent this
    obtain ⟨k', hlast, hkin, hlo, hhi⟩ := hinv'.last_key hp hroot
    rw [hpage, IndexPage.size, hk, Option.some.injEq] at hlast
    subst hlast
    obtain ⟨P, N', l₁, kp, l₂, hP, hPmem, -, hN', hN'items, hPl, hslot⟩ :=
      hinv'.exists_parent ho.keyOrder hp hroot hkin hlo hhi
    rw [hpage, IndexPage.parentPageNum] at hP
    subst hP
    rw [hN'] at hN
    obtain rfl : N' = N := IndexPage.internal.inj hN
    rw [hslot] at he
    have hchildren : (view (s'.set p (.leaf n'))).children n'.parent = N'.items := by
      simp only [view, hN', IndexPage.children]
    have hnodup := hinv'.tree.nodup_children hPmem
    rw [hchildren, hN'items, List.map_append, List.map_cons, List.nodup_append,
      List.nodup_cons] at hnodup
    obtain ⟨-, ⟨hp₂, -⟩, hp₁⟩ := hnodup
    have hp₂ : p ∉ l₂.map Prod.snd := hp₂
    have hp₁ : p ∉ l₁.map Prod.snd := fun hmem => hp₁ p hmem p (by simp) rfl
    have hne : e.2 ≠ p := by
      intro heq
      split at he
      next hzero =>
        have hnil := List.eq_nil_of_length_eq_zero hzero
        rw [hN'items, hnil, List.nil_append, List.getElem?_cons_succ] at he
        rw [← heq] at hp₂
        exact hp₂ (List.mem_map_of_mem (List.mem_of_getElem? he))
      next hzero =>
        rw [hN'items, List.getElem?_append_left (by omega)] at he
        rw [← heq] at hp₁
        exact hp₁ (List.mem_map_of_mem (List.mem_of_getElem? he))
    have hPp : n.parent ≠ p := by
      intro heq
      rw [hpar, heq, hpage] at hN'
      cases hN'
    have hN₀ : s'.page n.parent = .internal N' := by
      rw [hpar] at hN'
      simpa [hPp] using hN'
    have hneighbor : neighborPage s' p n = some e.2 := by
      unfold neighborPage
      rw [hN₀]
      simp only [valueIndex_eq hN'items hp₁, Option.bind_some, he, Option.map_some]
    by_contra hsum
    refine hsafe ⟨p, hleaf, ?_⟩
    unfold MergesLeaf
    rw [hn]
    refine ⟨hfound, hlen ▸ hless, hpar ▸ hparent, e.2, hneighbor, ?_⟩
    simp only [FlatPool.set_page, hne, if_false] at hsum
    omega

/-- A scan of a represented file ends and changes nothing. -/
theorem RepresentsSet.scan {A : Type} [LinearOrder A] {attrComparator : A → A → Int}
    {InTree : IndexKey A → Prop} {s : FlatPool (IndexPage (IndexKey A))}
    {C : SortedSet (IndexKey A)} (ho : OrdersKeys (keyComparator attrComparator) InTree)
    (h : RepresentsSet InTree header s height C) (hfuel : height ≤ fuel)
    (hlength : C.entries.length < fuel) {left right : Option (A × Bool)}
    (hl : ∀ k ∈ left.map leftKey, InTree k) (hr : ∀ k ∈ right.map rightKey, InTree k)
    (hle : validRange attrComparator left right = true →
      lowerPoint (left.map leftKey) ≤ upperPoint (right.map rightKey)) :
    ∃ answer, exec flat (scanInts attrComparator fuel left right) header s =
      some ((answer, header), s) := by
  have hclose : ∀ scanner, ∃ scanner', exec flat (closeScanner (K := IndexKey A) scanner) header s =
      some (((.success, scanner'), header), s) := by
    intro scanner
    unfold closeScanner
    rcases scanner.leftFrame with _ | q <;> rcases scanner.rightFrame with _ | r <;> simp
  by_cases hvalid : validRange attrComparator left right = true
  · rcases h with ⟨hempty, -⟩ | ⟨g, hinv, hC, hlt⟩
    · have hopen : exec flat (openInts attrComparator fuel left right .closed) header s =
          some (((.empty, { BplusTreeScanner.closed with inited := true }), header), s) := by
        rcases left with _ | left
        · simp [openInts, BplusTreeScanner.closed, hvalid, openKeys, openLeft, leftMostPage,
            findLeafInternal_empty hempty.root]
        · simp [openInts, BplusTreeScanner.closed, hvalid, openKeys, openLeft, Index.findLeaf,
            findLeafInternal_empty hempty.root]
      obtain ⟨scanner', hrun⟩ := hclose { BplusTreeScanner.closed with inited := true }
      exact ⟨_, by simp [scanInts, hopen, hrun]; rfl⟩
    · let scanner : BplusTreeScanner := { BplusTreeScanner.closed with inited := true }
      have hend : scanner.endIndex = -1 := rfl
      have hlevel : g.level header.rootPage < fuel := by omega
      obtain ⟨scanner₁, scanner₂, hopen, hscan⟩ :=
        scanKeys_ok ho hinv.readInv hC hlevel hlength hl hr (SortedSet.cut_mono _ (hle hvalid)) hend
      have hopen' : exec flat (openInts attrComparator fuel left right .closed) header s =
          some (((.success, scanner₁), header), s) := by
        simp [openInts, BplusTreeScanner.closed, hvalid] at hopen ⊢
        exact hopen
      obtain ⟨scanner₃, hrun⟩ := hclose scanner₂
      exact ⟨_, by simp [scanInts, hopen', hscan, hrun]; rfl⟩
  · have hopen : exec flat (openInts attrComparator fuel left right .closed) header s =
        some (((.invalidArgument, { BplusTreeScanner.closed with inited := true }), header), s) := by
      simp [openInts, BplusTreeScanner.closed, hvalid]
    obtain ⟨scanner', hrun⟩ := hclose { BplusTreeScanner.closed with inited := true }
    exact ⟨_, by simp [scanInts, hopen, hrun]; rfl⟩

end op

/-! ## Runs -/

section runs

variable {ops : List TreeOp} {header : IndexFileHeader}
  {s : FlatPool (IndexPage (IndexKey Int))} {C : SortedSet (IndexKey Int)} {fuel height : ℕ}

/-- The keys of a run: an attribute value of an operation with any record identifier. -/
def RunKey (values : List Int) (k : IndexKey Int) : Prop := k.attr ∈ values ∧ RIDInRange k.rid

/-- Keys can be compared when no difference of two values overflows. -/
theorem runKey_orders {values : List Int} (hdiff : ∀ a ∈ values, ∀ b ∈ values,
    -2147483648 ≤ a - b ∧ a - b ≤ 2147483647) :
    OrdersKeys (keyComparator compareInt) (RunKey values) :=
  compareInt_orders (fun a b ha hb => hdiff a.attr ha.1 b.attr hb.1) fun _ ha => ha.2

/-- The keys of the bounds of an accepted range are in order. -/
theorem lowerPoint_le_of_valid {values : List Int} {left right : Option (Int × Bool)}
    (hdiff : ∀ a ∈ values, ∀ b ∈ values, -2147483648 ≤ a - b ∧ a - b ≤ 2147483647)
    (hl : ∀ l ∈ left, l.1 ∈ values) (hr : ∀ r ∈ right, r.1 ∈ values)
    (hvalid : validRange compareInt left right = true) :
    lowerPoint (left.map leftKey) ≤ upperPoint (right.map rightKey) := by
  refine lowerPoint_le_upperPoint ?_
  rintro ⟨l, rfl, r, rfl, hrej⟩
  have hlr := hdiff l.1 (hl l rfl) r.1 (hr r rfl)
  obtain ⟨l, li⟩ := l
  obtain ⟨r, ri⟩ := r
  simp only [validRange, compareInt, wrap32_eq hlr.1 hlr.2] at hvalid hrej
  cases li <;> cases ri <;> simp at hvalid hrej <;> omega

/-- The keys of bounds have record identifiers in range. -/
theorem ridInRange_bounds (b : Int × Bool) :
    RIDInRange (leftKey b).rid ∧ RIDInRange (rightKey b).rid := by
  obtain ⟨a, inclusive⟩ := b
  cases inclusive <;> simp [leftKey, rightKey, RIDInRange, RID.min, RID.max]

/-- **One operation.** It ends with an answer, the file represents a set again, and the pins are
balanced unless a mark is lost. -/
theorem TreeOp.run_ok {values : List Int}
    (hdiff : ∀ a ∈ values, ∀ b ∈ values, -2147483648 ≤ a - b ∧ a - b ≤ 2147483647)
    (h : RepresentsSet (RunKey values) header s height C) (op : TreeOp)
    (hvalues : ∀ a ∈ op.values, a ∈ values) (hrids : ∀ r ∈ op.rids, RIDInRange r)
    (hfuel : height ≤ fuel) (hlength : C.entries.length < fuel)
    (hsafe : ¬ op.LosesMark fuel header s) :
    Keeps [] header s (op.run fuel) (fun _ L' => L' = []) ∧
      ∃ answer header' s' C', exec flat (op.run fuel) header s = some ((answer, header'), s') ∧
        RepresentsSet (RunKey values) header' s' (height + 1) C' ∧
        C'.entries.length ≤ C.entries.length + 1 := by
  have ho := runKey_orders hdiff
  cases op with
  | insertEntry userKey rid =>
      have hkey : RunKey values ⟨userKey, rid⟩ :=
        ⟨hvalues userKey (by simp [TreeOp.values]), hrids rid (by simp [rids])⟩
      obtain ⟨header', s', hexec, h', -⟩ :=
        op_ok ho fuel (.insertEntry ⟨userKey, rid⟩ rid) h hkey hfuel
      refine ⟨Keeps.bind (h.keeps_insertEntry ho hfuel hkey rid hsafe)
        fun _ _ _ _ _ hL => Keeps.pure hL,
        .code ((IndexOp.insertEntry ⟨userKey, rid⟩ rid).reference C).1, header', s', _, ?_, h',
        length_reference_le _ C⟩
      rw [IndexOp.run] at hexec
      simp [run, hexec]
  | deleteEntry userKey rid =>
      have hkey : RunKey values ⟨userKey, rid⟩ :=
        ⟨hvalues userKey (by simp [TreeOp.values]), hrids rid (by simp [rids])⟩
      obtain ⟨header', s', hexec, h', -⟩ := op_ok ho fuel (.deleteEntry ⟨userKey, rid⟩) h hkey hfuel
      refine ⟨Keeps.bind (h.keeps_deleteEntry ho hfuel hkey hsafe)
        fun _ _ _ _ _ hL => Keeps.pure hL,
        .code ((IndexOp.deleteEntry ⟨userKey, rid⟩).reference C).1, header', s', _, ?_, h',
        length_reference_le _ C⟩
      rw [IndexOp.run] at hexec
      simp [run, hexec]
  | sync =>
      exact ⟨Keeps.bind keeps_sync fun _ _ _ _ _ hL => Keeps.pure hL, .code .success, header, s, C,
        rfl, Represents.succ h, Nat.le_succ _⟩
  | scan left right =>
      have hl : ∀ l ∈ left, l.1 ∈ values := fun l hl =>
        hvalues l.1 (by simp only [TreeOp.values]; simp_all)
      have hr : ∀ r ∈ right, r.1 ∈ values := fun r hr =>
        hvalues r.1 (by simp only [TreeOp.values]; simp_all)
      have hlk : ∀ k ∈ left.map leftKey, RunKey values k := by
        rintro k hk
        obtain ⟨l, hl', rfl⟩ := Option.map_eq_some_iff.mp hk
        exact ⟨hl l hl', (ridInRange_bounds l).1⟩
      have hrk : ∀ k ∈ right.map rightKey, RunKey values k := by
        rintro k hk
        obtain ⟨r, hr', rfl⟩ := Option.map_eq_some_iff.mp hk
        exact ⟨hr r hr', (ridInRange_bounds r).2⟩
      obtain ⟨⟨rcOpen, rcEnd, found⟩, hexec⟩ := h.scan ho hfuel hlength hlk hrk
        (lowerPoint_le_of_valid hdiff hl hr)
      refine ⟨Keeps.bind (keeps_scanInts compareInt fuel left right) fun _ _ _ _ _ hL =>
        Keeps.pure hL, .scanned rcOpen rcEnd found, header, s, C, ?_, Represents.succ h,
        Nat.le_succ _⟩
      simp [run, hexec]

/-- **A run of operations.** -/
theorem runTree_ok {values : List Int}
    (hdiff : ∀ a ∈ values, ∀ b ∈ values, -2147483648 ≤ a - b ∧ a - b ≤ 2147483647)
    (ops : List TreeOp) (h : RepresentsSet (RunKey values) header s height C)
    (hvalues : ∀ op ∈ ops, ∀ a ∈ op.values, a ∈ values)
    (hrids : ∀ op ∈ ops, ∀ r ∈ op.rids, RIDInRange r) (hfuel : height + ops.length ≤ fuel)
    (hlength : C.entries.length + ops.length < fuel) (hsafe : KeepsMarks fuel ops header s) :
    Keeps [] header s (runTree fuel ops) (fun _ L' => L' = []) ∧
      ∃ answers header' s', exec flat (runTree fuel ops) header s =
        some ((answers, header'), s') := by
  induction ops generalizing header s height C with
  | nil => exact ⟨Keeps.pure rfl, [], header, s, rfl⟩
  | cons op ops ih =>
      rw [List.length_cons] at hfuel hlength
      obtain ⟨hop, hops⟩ := hsafe
      obtain ⟨hkeeps, answer, header₁, s₁, C₁, hexec, h₁, hC₁⟩ := op.run_ok hdiff h
        (hvalues op (by simp)) (hrids op (by simp)) (by omega) (by omega) hop
      rw [hexec] at hops
      obtain ⟨hkeeps', answers, header', s', hrun⟩ := ih h₁
        (fun o ho => hvalues o (by simp [ho])) (fun o ho => hrids o (by simp [ho])) (by omega)
        (by omega) hops
      refine ⟨Keeps.bind hkeeps fun a header'' s'' L' hexec' hL => ?_, answer :: answers, header', s',
        by simp [runTree, hexec, hrun]⟩
      rw [hexec, Option.some.injEq, Prod.mk.injEq, Prod.mk.injEq] at hexec'
      obtain ⟨⟨rfl, rfl⟩, rfl⟩ := hexec'
      subst hL
      exact Keeps.bind hkeeps' fun _ _ _ _ _ hL => Keeps.pure hL

/-- No operation of a run on a new index loses a mark. -/
def CreatedKeepsMarks (internalMaxSize leafMaxSize : Int) (fuel : ℕ) (ops : List TreeOp) : Prop :=
  match exec flat (create 4 internalMaxSize leafMaxSize) default .created with
  | some ((_, header), s) => KeepsMarks fuel ops header s
  | none => True

instance (internalMaxSize leafMaxSize : Int) (fuel : ℕ) (ops : List TreeOp) :
    Decidable (CreatedKeepsMarks internalMaxSize leafMaxSize fuel ops) :=
  match h : exec flat (create 4 internalMaxSize leafMaxSize) default .created with
  | none => .isTrue (by simp [CreatedKeepsMarks, h])
  | some r => decidable_of_iff (KeepsMarks fuel ops r.1.2 r.2) (by simp [CreatedKeepsMarks, h])

/-- **Evictions are invisible to a run that marks what it changes.** Whatever the operations, if
none of them splits a leaf before another leaf or merges two leaves, then under every schedule of
evictions between the calls on the buffer pool the answers are those of the run without evictions,
and so are the pages at the end, whatever is evicted then; no page was let go while it was changed
and not marked. -/
theorem eviction_invisible (internalMaxSize leafMaxSize : Int)
    (hinternal : 6 ≤ (newFileHeader 4 internalMaxSize leafMaxSize).internalMaxSize)
    (hleaf : 4 ≤ (newFileHeader 4 internalMaxSize leafMaxSize).leafMaxSize)
    (ops : List TreeOp) (hops : RunComparable ops) (fuel : ℕ) (hfuel : ops.length < fuel)
    (hsafe : CreatedKeepsMarks internalMaxSize leafMaxSize fuel ops) (schedule : ℕ → List Int) :
    ∃ answers header s t c k,
      exec flat (createAndRunTree internalMaxSize leafMaxSize fuel ops) default .created =
        some ((answers, header), s) ∧
      exec tracked (createAndRunTree internalMaxSize leafMaxSize fuel ops) default
        (.created, .quiet) = some ((answers, header), (s, t)) ∧ t.lost = [] ∧
      exec (evicting schedule) (createAndRunTree internalMaxSize leafMaxSize fuel ops) default
        (.created, 0) = some ((answers, header), (c, k)) ∧
      ∀ (victims : List Int) (p : Int),
        (victims.foldl CachedPool.evict c).content p = s.page p := by
  obtain ⟨s₀, hcreate, h₀⟩ := create_ok (RunKey (ops.flatMap TreeOp.values)) hinternal hleaf default
  unfold CreatedKeepsMarks at hsafe
  rw [hcreate] at hsafe
  obtain ⟨hkeeps, answers, header, s, hrun⟩ := runTree_ok hops.diff ops h₀
    (fun op hop a ha => List.mem_flatMap.mpr ⟨op, hop, ha⟩)
    (fun op hop r hr => hops.rid r (List.mem_flatMap.mpr ⟨op, hop, hr⟩)) (by omega)
    (by simpa [SortedSet.empty] using hfuel) hsafe
  have hflat : exec flat (createAndRunTree internalMaxSize leafMaxSize fuel ops) default .created =
      some (((.success, answers), header), s) := by
    simp [createAndRunTree, hcreate, hrun]
  have hall : Keeps [] default .created
      (createAndRunTree internalMaxSize leafMaxSize fuel ops) fun _ L' => L' = [] := by
    unfold createAndRunTree
    refine Keeps.bind (keeps_create 4 internalMaxSize leafMaxSize) fun a header' s' L' hexec hL => ?_
    rw [hcreate, Option.some.injEq, Prod.mk.injEq, Prod.mk.injEq] at hexec
    obtain ⟨⟨rfl, rfl⟩, rfl⟩ := hexec
    subst hL
    exact Keeps.bind hkeeps fun _ _ _ _ _ hL => Keeps.pure hL
  obtain ⟨t, htracked⟩ := exec_tracked_of_flat .quiet hflat
  obtain ⟨L', hL', -⟩ := hall .quiet Marks.holds_quiet _ _ _ _ htracked
  obtain ⟨c, k, hevict, hagree⟩ := run_evicting schedule _ 0 htracked hL'.clean
    BufferPool.agrees_created
  exact ⟨_, header, s, t, c, k, hflat, htracked, hL'.clean.1, hevict,
    fun victims p => (hagree.evictAll victims).content p⟩

/-- The fifth pair splits the last leaf, and the pairs of both leaves are read. -/
def splitLastLeaf : List TreeOp :=
  [.insertEntry 1 ⟨1, 1⟩, .insertEntry 2 ⟨1, 2⟩, .insertEntry 3 ⟨1, 3⟩, .insertEntry 4 ⟨1, 4⟩,
    .insertEntry 5 ⟨1, 5⟩, .deleteEntry 4 ⟨1, 4⟩, .insertEntry 2 ⟨1, 6⟩, .scan none none]

/-- A run with a split, with every page evicted before every call on the pool. -/
theorem eviction_invisible_run : ∃ header c k,
    exec (evicting fun _ => [1, 2, 3, 4]) (createAndRunTree 6 4 9 splitLastLeaf) default
        (.created, 0) =
      some (((.success, [.code .success, .code .success, .code .success, .code .success,
        .code .success, .code .success, .code .success, .scanned .success .recordEof
          [⟨1, 1⟩, ⟨1, 2⟩, ⟨1, 6⟩, ⟨1, 3⟩, ⟨1, 5⟩]]), header), (c, k)) := by
  obtain ⟨answers, header, s, t, c, k, hflat, -, -, hevict, -⟩ := eviction_invisible 6 4 (by decide)
    (by decide) splitLastLeaf ⟨by decide, by decide⟩ 9 (by decide) (by decide +kernel)
    fun _ => [1, 2, 3, 4]
  have hanswers : (exec flat (createAndRunTree 6 4 9 splitLastLeaf) default .created).map
      (fun r => r.1.1) = some (.success, [.code .success, .code .success, .code .success,
        .code .success, .code .success, .code .success, .code .success,
        .scanned .success .recordEof [⟨1, 1⟩, ⟨1, 2⟩, ⟨1, 6⟩, ⟨1, 3⟩, ⟨1, 5⟩]]) := by
    decide +kernel
  rw [hflat, Option.map_some, Option.some.injEq] at hanswers
  exact ⟨header, c, k, hanswers ▸ hevict⟩

/-- **A merge that an eviction undoes in part.** Deleting `4` moves the entry of `3` to the leaf at
its left, which is not marked dirty; when that leaf is evicted the entry is gone. -/
theorem eviction_visible :
    (exec flat (createAndRunTree 6 4 20 [.insertEntry 1 ⟨1, 1⟩, .insertEntry 2 ⟨1, 2⟩,
        .insertEntry 3 ⟨1, 3⟩, .insertEntry 4 ⟨1, 4⟩, .insertEntry 5 ⟨1, 5⟩, .deleteEntry 5 ⟨1, 5⟩,
        .sync, .deleteEntry 4 ⟨1, 4⟩, .scan none none]) default .created).map
      (fun r => r.1.1.2.getLast?) =
        some (some (.scanned .success .recordEof [⟨1, 1⟩, ⟨1, 2⟩, ⟨1, 3⟩])) ∧
    (exec (evicting fun _ => [2, 3, 4]) (createAndRunTree 6 4 20 [.insertEntry 1 ⟨1, 1⟩,
        .insertEntry 2 ⟨1, 2⟩, .insertEntry 3 ⟨1, 3⟩, .insertEntry 4 ⟨1, 4⟩, .insertEntry 5 ⟨1, 5⟩,
        .deleteEntry 5 ⟨1, 5⟩, .sync, .deleteEntry 4 ⟨1, 4⟩, .scan none none]) default
        (.created, 0)).map (fun r => r.1.1.2.getLast?) =
      some (some (.scanned .success .recordEof [⟨1, 1⟩, ⟨1, 2⟩])) := by
  decide +kernel

end runs

end Miniob.Storage.Index
