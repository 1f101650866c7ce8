import Miniob.Storage.Index.Runs
import Miniob.Storage.Index.Scanner

/-!
# Range scans are exact

A position of a scanner, a leaf and a slot, is a place in the list of all entries: `C.cut x` is the
number of entries below `x`, so slot `i` of leaf `q` is place `C.cut (g.lo q) + i`. In these terms
the left position of a scan is `C.cut` of the left key, the right one is the place before `C.cut`
of the right key, and a scan reads the places between them.

* `LeafAt`: a leaf and the part of the list it holds. `LeafAt.unique`: a place is in one leaf.
* `openLeft_ok`, `openRight_ok`: the positions of the two bounds.
* `nextEntries_ok`: the walk between two positions, by induction on the number of entries left.
* `range_scan_exact`: a scan of an `INTS` index returns the entries within its bounds.
-/

namespace Miniob.Storage.Index

open Miniob.Lib
open Miniob.Storage.BufferPool (FlatPool flat)

variable {K : Type} [LinearOrder K]

/-! ## Places in a sorted list -/

namespace SortedSet

variable (C : SortedSet K) {x y : WithBot (WithTop K)}

/-- The number of entries below a point. -/
def cut (x : WithBot (WithTop K)) : ℕ := (C.entries.filter fun e => place e.1 < x).length

/-- The entries below a point come first. -/
theorem filter_lt_eq_take (x : WithBot (WithTop K)) :
    (C.entries.filter fun e => place e.1 < x) = C.entries.take (C.cut x) ∧
      (C.entries.filter fun e => x ≤ place e.1) = C.entries.drop (C.cut x) := by
  have happend : (C.entries.filter fun e => place e.1 < x) ++
      (C.entries.filter fun e => x ≤ place e.1) = C.entries := by
    have := C.filter_append (bot_le : ⊥ ≤ x)
    simpa using this
  constructor
  · conv_rhs => rw [← happend]
    exact (List.take_left' rfl).symm
  · conv_rhs => rw [← happend]
    exact (List.drop_left' rfl).symm

theorem cut_le : C.cut x ≤ C.entries.length := List.length_filter_le _ _

theorem cut_le_cut (h : ∀ e ∈ C.entries, place e.1 < x → place e.1 < y) : C.cut x ≤ C.cut y := by
  simp only [cut, ← List.countP_eq_length_filter]
  exact List.countP_mono_left fun e he hlt => by simpa using h e he (by simpa using hlt)

theorem cut_mono (h : x ≤ y) : C.cut x ≤ C.cut y :=
  C.cut_le_cut fun _ _ he => he.trans_le h

@[simp] theorem cut_bot : C.cut ⊥ = 0 := by
  simp [cut]

@[simp] theorem cut_top : C.cut ⊤ = C.entries.length := by
  have : (C.entries.filter fun e => place e.1 < ⊤) = C.entries :=
    List.filter_eq_self.mpr fun e _ => by simpa using place_lt_top e.1
  rw [cut, this]

/-- The entries between two points. -/
theorem filter_between (x y : WithBot (WithTop K)) :
    (C.entries.filter fun e => x ≤ place e.1 ∧ place e.1 < y) =
      (C.entries.take (C.cut y)).drop (C.cut x) := by
  rcases le_or_gt x y with hxy | hyx
  case inr =>
    have hnone : (C.entries.filter fun e => x ≤ place e.1 ∧ place e.1 < y) = [] :=
      List.filter_eq_nil_iff.mpr fun e _ => by
        simpa using fun h => (hyx.trans_le h).le
    rw [hnone, List.drop_eq_nil_of_le ((List.length_take_le _ _).trans (C.cut_mono hyx.le))]
  have happend := C.filter_append hxy
  rw [(C.filter_lt_eq_take x).2, (C.filter_lt_eq_take y).2] at happend
  have hdrop : (C.entries.take (C.cut y)).drop (C.cut x) ++ C.entries.drop (C.cut y) =
      C.entries.drop (C.cut x) := by
    have hsub : C.cut x - (C.entries.take (C.cut y)).length = 0 := by
      have := C.cut_mono hxy
      rw [List.length_take, min_eq_left C.cut_le]
      omega
    conv_rhs => rw [← List.take_append_drop (C.cut y) C.entries, List.drop_append, hsub,
      List.drop_zero]
  exact List.append_cancel_right (happend.trans hdrop.symm)

/-- An entry of the list is above a point when its place is after the cut. -/
theorem le_place_iff {k : ℕ} {e : K × RID} (he : C.entries[k]? = some e) :
    x ≤ place e.1 ↔ C.cut x ≤ k := by
  obtain ⟨hlt, hk⟩ := List.getElem?_eq_some_iff.mp he
  constructor
  · intro hle
    by_contra hcut
    have hmem : e ∈ C.entries.take (C.cut x) := by
      refine List.mem_of_getElem? (i := k) ?_
      rw [List.getElem?_take_of_lt (by omega)]
      exact he
    rw [← (C.filter_lt_eq_take x).1, List.mem_filter] at hmem
    simp only [decide_eq_true_eq] at hmem
    exact absurd hmem.2 hle.not_gt
  · intro hcut
    have hmem : e ∈ C.entries.drop (C.cut x) := by
      refine List.mem_of_getElem? (i := k - C.cut x) ?_
      rw [List.getElem?_drop, Nat.add_sub_cancel' hcut]
      exact he
    rw [← (C.filter_lt_eq_take x).2, List.mem_filter] at hmem
    simpa using hmem.2

end SortedSet

/-! ## Leaves as parts of the list -/

section leaves

variable {comparator : K → K → Int} {InTree : K → Prop} {header : IndexFileHeader}
  {s : FlatPool (IndexPage K)} {g : Ghost (WithBot (WithTop K))} {C : SortedSet K} {fuel : ℕ}
  {q r : Int} {n m : LeafIndexNode K} {i j k : ℕ}

/-- What a reader of a nonempty index relies on. -/
structure ReadInv (InTree : K → Prop) (header : IndexFileHeader) (s : FlatPool (IndexPage K))
    (g : Ghost (WithBot (WithTop K))) : Prop where
  /-- The shape of the tree. -/
  tree : TreeInv InTree place (view s) g header.rootPage none
  /-- No leaf is empty. -/
  entries_ne_nil : ∀ q ∈ g.nodes, g.level q = 0 → (view s).entries q ≠ []

theorem IndexInv.readInv (h : IndexInv InTree place header s g none none) :
    ReadInv InTree header s g :=
  ⟨h.tree, fun _ hq hl => h.entries_ne_nil hq hl⟩

/-- The leaf `n` on page `q` holds the entries of the list from place `C.cut (g.lo q)` on. -/
structure LeafAt (s : FlatPool (IndexPage K)) (g : Ghost (WithBot (WithTop K))) (C : SortedSet K)
    (q : Int) (n : LeafIndexNode K) : Prop where
  /-- It is a node. -/
  mem : q ∈ g.nodes
  /-- It is a leaf. -/
  level : g.level q = 0
  /-- Its page. -/
  page : s.page q = .leaf n
  /-- Its entries. -/
  get : ∀ i, i < n.items.length → n.items[i]? = C.entries[C.cut (g.lo q) + i]?
  /-- It is not empty. -/
  pos : 0 < n.items.length
  /-- Where it ends. -/
  cut_hi : C.cut (g.hi q) = C.cut (g.lo q) + n.items.length

/-- The part of the list that a leaf holds. -/
theorem ReadInv.leafAt (h : ReadInv InTree header s g)
    (hC : ∀ e, e ∈ C.entries ↔ Holds (view s) g e) (hq : q ∈ g.nodes) (hl : g.level q = 0) :
    ∃ n, LeafAt s g C q n := by
  obtain ⟨n, hn, hE, -, -⟩ := h.tree.toNodeInv.exists_leaf hq hl
  have hne := h.entries_ne_nil q hq hl
  have hle := (h.tree.lo_lt_hi q hq).le
  have hmono := C.cut_mono hle
  have hitems : n.items = (C.entries.take (C.cut (g.hi q))).drop (C.cut (g.lo q)) := by
    rw [← hE, h.tree.entries_eq hC hq hl, C.filter_between]
  have hlen : n.items.length = C.cut (g.hi q) - C.cut (g.lo q) := by
    rw [hitems, List.length_drop, List.length_take, min_eq_left C.cut_le]
  refine ⟨n, hq, hl, hn, fun i hi => ?_, List.length_pos_of_ne_nil (hE ▸ hne), by omega⟩
  rw [hlen] at hi
  rw [hitems, List.getElem?_drop, List.getElem?_take_of_lt (by omega)]

/-- A place is in one leaf. -/
theorem LeafAt.unique (h : ReadInv InTree header s g) (hq : LeafAt s g C q n)
    (hr : LeafAt s g C r m) (hi : i < n.items.length) (hj : j < m.items.length)
    (hij : C.cut (g.lo q) + i = C.cut (g.lo r) + j) : q = r := by
  have hlt : C.cut (g.lo q) + i < C.entries.length := by
    have := hq.cut_hi ▸ C.cut_le (x := g.hi q)
    omega
  obtain ⟨e, he⟩ : ∃ e, C.entries[C.cut (g.lo q) + i]? = some e :=
    ⟨_, List.getElem?_eq_getElem hlt⟩
  have hin : ∀ {x : Int} {l : LeafIndexNode K} {k : ℕ}, LeafAt s g C x l → k < l.items.length →
      C.cut (g.lo q) + i = C.cut (g.lo x) + k → g.lo x ≤ place e.1 ∧ place e.1 < g.hi x := by
    intro x l k hx hk heq
    rw [C.le_place_iff he, ← not_le, C.le_place_iff he, hx.cut_hi]
    omega
  obtain ⟨hlo, hhi⟩ := hin hq hi rfl
  obtain ⟨hlo', hhi'⟩ := hin hr hj hij
  exact h.tree.unique hq.mem hr.mem (hq.level.trans hr.level.symm) hlo hhi hlo' hhi'

/-- The leaf after a leaf. -/
theorem LeafAt.next (h : ReadInv InTree header s g)
    (hC : ∀ e, e ∈ C.entries ↔ Holds (view s) g e) (hq : LeafAt s g C q n) :
    n.nextBrother = bpInvalidPageNum ∧ C.cut (g.lo q) + n.items.length = C.entries.length ∨
      n.nextBrother ≠ bpInvalidPageNum ∧ ∃ m, LeafAt s g C n.nextBrother m ∧
        C.cut (g.lo n.nextBrother) = C.cut (g.lo q) + n.items.length := by
  have hnext := h.tree.next q hq.mem hq.level
  simp only [view, hq.page, IndexPage.next] at hnext
  rcases hnext with ⟨htop, hend⟩ | ⟨hmem, hl, hlo, -⟩
  · refine Or.inl ⟨hend, ?_⟩
    rw [← hq.cut_hi, htop, C.cut_top]
  · obtain ⟨m, hm⟩ := h.leafAt hC hmem hl
    refine Or.inr ⟨fun heq => ?_, m, hm, by rw [hlo, hq.cut_hi]⟩
    have := h.tree.nonneg _ hmem
    rw [heq, bpInvalidPageNum] at this
    omega

/-- The leaf before a leaf. -/
theorem LeafAt.prev (h : ReadInv InTree header s g)
    (hC : ∀ e, e ∈ C.entries ↔ Holds (view s) g e) (hq : LeafAt s g C q n) :
    n.prevBrother = bpInvalidPageNum ∧ C.cut (g.lo q) = 0 ∨
      n.prevBrother ≠ bpInvalidPageNum ∧ ∃ m, LeafAt s g C n.prevBrother m ∧
        C.cut (g.lo q) = C.cut (g.lo n.prevBrother) + m.items.length := by
  have hprev := h.tree.prev q hq.mem hq.level
  simp only [view, hq.page, IndexPage.prev] at hprev
  rcases hprev with ⟨hbot, hend⟩ | ⟨hmem, hl, hhi, -⟩
  · refine Or.inl ⟨hend, ?_⟩
    rw [hbot, C.cut_bot]
  · obtain ⟨m, hm⟩ := h.leafAt hC hmem hl
    refine Or.inr ⟨fun heq => ?_, m, hm, by rw [← hm.cut_hi, hhi]⟩
    have := h.tree.nonneg _ hmem
    rw [heq, bpInvalidPageNum] at this
    omega

/-- The search in the leaf of a key ends at the key's place. -/
theorem LeafAt.lookup (ho : OrdersKeys comparator InTree)
    (h : ReadInv InTree header s g) (hq : LeafAt s g C q n) {key : K}
    (hkey : InTree key) (hlo : g.lo q ≤ place key) (hhi : place key < g.hi q) :
    C.cut (g.lo q) + (n.lookup comparator key).1 = C.cut (place key) := by
  have hE : (view s).entries q = n.items := by simp [view, hq.page, IndexPage.entries]
  have hentry := h.tree.entry q hq.mem
  have hsorted := h.tree.sorted q hq.mem
  rw [hE] at hentry hsorted
  -- the place of the key is determined by the entries below it and those not below it
  have hcut : ∀ i ≤ n.items.length, (∀ e ∈ n.items.take i, place e.1 < place key) →
      (∀ e ∈ n.items.drop i, place key ≤ place e.1) →
      C.cut (g.lo q) + i = C.cut (place key) := by
    intro i hi hbelow habove
    have hmono := C.cut_mono hlo
    have hmono' := C.cut_mono hhi.le
    rw [hq.cut_hi] at hmono'
    have hle := hq.cut_hi ▸ C.cut_le (x := g.hi q)
    apply le_antisymm
    · by_contra hgt
      -- the entry before slot `i` is below the key
      obtain ⟨e, he⟩ : ∃ e, C.entries[C.cut (place key)]? = some e :=
        ⟨_, List.getElem?_eq_getElem (by omega)⟩
      have hge := (C.le_place_iff he).mpr le_rfl
      have hslot := hq.get (C.cut (place key) - C.cut (g.lo q)) (by omega)
      rw [Nat.add_sub_cancel' hmono, he] at hslot
      refine absurd (hbelow e (List.mem_of_getElem? (i := C.cut (place key) - C.cut (g.lo q)) ?_))
        hge.not_gt
      rw [List.getElem?_take_of_lt (by omega)]
      exact hslot
    · by_contra hgt
      obtain ⟨e, he⟩ : ∃ e, C.entries[C.cut (g.lo q) + i]? = some e :=
        ⟨_, List.getElem?_eq_getElem (by omega)⟩
      have hslot := hq.get i (by omega)
      rw [he] at hslot
      have hge := habove e (List.mem_of_getElem? (i := 0) (by
        rw [List.getElem?_drop, Nat.add_zero]
        exact hslot))
      rw [C.le_place_iff he] at hge
      omega
  rcases leaf_lookup ho.keyOrder hkey n (fun e he => (hentry e he).1) hsorted with
    ⟨a, b, hab, hl, hr, heq⟩ | ⟨a, e, b, hab, he, hl, hr, heq⟩
  · rw [heq]
    refine hcut a.length (by simp [hab]) ?_ ?_
    · rw [hab, List.take_left' rfl]
      exact hl
    · rw [hab, List.drop_left' rfl]
      exact fun e he => (hr e he).le
  · rw [heq]
    refine hcut a.length (by simp [hab]) ?_ ?_
    · rw [hab, List.take_left' rfl]
      exact hl
    · rw [hab, List.drop_left' rfl]
      intro f hf
      rcases List.mem_cons.mp hf with rfl | hf
      · exact he.ge
      · exact (hr f hf).le

end leaves

/-! ## The two ends of a scan -/

section scan

variable {comparator : K → K → Int} {InTree : K → Prop} {header : IndexFileHeader}
  {s : FlatPool (IndexPage K)} {g : Ghost (WithBot (WithTop K))} {C : SortedSet K}
  {q r : Int} {n m : LeafIndexNode K} {i j k : ℕ}

/-- A left bound as a point. -/
def lowerPoint (key : Option K) : WithBot (WithTop K) := key.elim ⊥ place

/-- A right bound as a point. -/
def upperPoint (key : Option K) : WithBot (WithTop K) := key.elim ⊤ place

/-- The left position is the place of the first entry at or above the bound. -/
theorem openLeft_ok (ho : OrdersKeys comparator InTree)
    (h : ReadInv InTree header s g)
    (hC : ∀ e, e ∈ C.entries ↔ Holds (view s) g e) {fuel : ℕ}
    (hfuel : g.level header.rootPage < fuel) (key : Option K) (hkey : ∀ k ∈ key, InTree k) :
    (∃ q, C.cut (lowerPoint key) = C.entries.length ∧
      exec flat (openLeft comparator fuel key) header s =
        some (((.success, some q, none), header), s)) ∨
      ∃ q n i, LeafAt s g C q n ∧ i < n.items.length ∧
        C.cut (g.lo q) + i = C.cut (lowerPoint key) ∧
        exec flat (openLeft comparator fuel key) header s =
          some (((.success, some q, some i), header), s) := by
  cases key with
  | none =>
      obtain ⟨q, hq, hl, hlo, hexec⟩ := leftMostPage_ok h.tree.toNodeInv fuel hfuel
      obtain ⟨n, hn⟩ := h.leafAt hC hq hl
      refine Or.inr ⟨q, n, 0, hn, hn.pos, ?_, ?_⟩
      · rw [hlo, lowerPoint, Option.elim_none, Nat.add_zero]
      · simp [openLeft, hexec]
  | some key =>
      have hkey := hkey key rfl
      obtain ⟨q, hq, hl, ⟨hlo, hhi⟩, hexec⟩ := findLeaf_ok ho.keyOrder h.tree.toNodeInv fuel hfuel hkey
      obtain ⟨n, hn⟩ := h.leafAt hC hq hl
      have hlookup := hn.lookup ho h hkey hlo hhi
      by_cases hlast : n.items.length ≤ (n.lookup comparator key).1
      · have hmono := C.cut_mono hhi.le
        rw [hn.cut_hi] at hmono
        rcases hn.next h hC with ⟨hend, htotal⟩ | ⟨hvalid, m, hm, hcut⟩
        · refine Or.inl ⟨q, ?_, ?_⟩
          · have := C.cut_le (x := place key)
            rw [lowerPoint, Option.elim_some]
            omega
          · simp [openLeft, hexec, hn.page, hlast, hend]
        · refine Or.inr ⟨n.nextBrother, m, 0, hm, hm.pos, ?_, ?_⟩
          · rw [lowerPoint, Option.elim_some]
            omega
          · simp [openLeft, hexec, hn.page, hlast, hvalid]
      · refine Or.inr ⟨q, n, (n.lookup comparator key).1, hn, not_le.mp hlast, hlookup, ?_⟩
        simp [openLeft, hexec, hn.page, hlast]

/-- The right position is the place of the last entry below the bound. -/
theorem openRight_ok (ho : OrdersKeys comparator InTree)
    (h : ReadInv InTree header s g)
    (hC : ∀ e, e ∈ C.entries ↔ Holds (view s) g e) {fuel : ℕ}
    (hfuel : g.level header.rootPage < fuel) (key : Option K) (hkey : ∀ k ∈ key, InTree k) :
    (∃ q, C.cut (upperPoint key) = 0 ∧ exec flat (openRight comparator fuel key) header s =
        some (((.success, some q, none), header), s)) ∨
      ∃ q n i, LeafAt s g C q n ∧ i < n.items.length ∧
        C.cut (g.lo q) + i + 1 = C.cut (upperPoint key) ∧
        exec flat (openRight comparator fuel key) header s =
          some (((.success, some q, some i), header), s) := by
  cases key with
  | none =>
      obtain ⟨q, hq, hl, hhi, hexec⟩ := rightMostPage_ok h.tree.toNodeInv fuel hfuel
      obtain ⟨n, hn⟩ := h.leafAt hC hq hl
      have hpos := hn.pos
      have hcut := hn.cut_hi
      refine Or.inr ⟨q, n, n.items.length - 1, hn, by omega, ?_, ?_⟩
      · rw [hhi] at hcut
        rw [upperPoint, Option.elim_none]
        omega
      · simp [openRight, hexec, hn.page]
  | some key =>
      have hkey := hkey key rfl
      obtain ⟨q, hq, hl, ⟨hlo, hhi⟩, hexec⟩ := findLeaf_ok ho.keyOrder h.tree.toNodeInv fuel hfuel hkey
      obtain ⟨n, hn⟩ := h.leafAt hC hq hl
      have hlookup := hn.lookup ho h hkey hlo hhi
      by_cases hfirst : 0 < (n.lookup comparator key).1
      · have hmono := C.cut_mono hhi.le
        rw [hn.cut_hi] at hmono
        refine Or.inr ⟨q, n, (n.lookup comparator key).1 - 1, hn, by omega, ?_, ?_⟩
        · rw [upperPoint, Option.elim_some]
          omega
        · simp [openRight, hexec, hn.page, hfirst]
      · have hzero : (n.lookup comparator key).1 = 0 := by omega
        rcases hn.prev h hC with ⟨hend, hcut⟩ | ⟨hvalid, m, hm, hcut⟩
        · refine Or.inl ⟨q, ?_, ?_⟩
          · rw [upperPoint, Option.elim_some]
            omega
          · simp [openRight, hexec, hn.page, hzero, hend]
        · have hpos := hm.pos
          refine Or.inr ⟨n.prevBrother, m, m.items.length - 1, hm, by omega, ?_, ?_⟩
          · rw [upperPoint, Option.elim_some]
            omega
          · simp [openRight, hexec, hn.page, hzero, hvalid, hm.page]

/-! ## Scanning -/

/-- The scanner stands at place `k` of the list and will stop before place `b`. -/
structure ScansFrom (s : FlatPool (IndexPage K)) (g : Ghost (WithBot (WithTop K)))
    (C : SortedSet K) (k b : ℕ) (scanner : BplusTreeScanner) : Prop where
  /-- There is an entry left. -/
  lt : k < b
  /-- The left position. -/
  left : ∃ q n i, LeafAt s g C q n ∧ i < n.items.length ∧ C.cut (g.lo q) + i = k ∧
    scanner.leftFrame = some q ∧ scanner.iterIndex = (i : Int)
  /-- The right position. -/
  right : ∃ q n i, LeafAt s g C q n ∧ i < n.items.length ∧ C.cut (g.lo q) + i + 1 = b ∧
    scanner.rightFrame = some q ∧ scanner.endIndex = (i : Int)

omit [LinearOrder K] in
/-- After the last entry `next_entry` reports the end. -/
theorem nextEntry_eof {scanner : BplusTreeScanner} (hend : scanner.endIndex = -1) :
    exec flat (nextEntry scanner) header s = some (((.recordEof, none, scanner), header), s) := by
  simp [nextEntry, hend]

omit [LinearOrder K] in
/-- A scan that has ended reads nothing. -/
theorem nextEntries_eof {scanner : BplusTreeScanner} (hend : scanner.endIndex = -1) (fuel : ℕ) :
    exec flat (nextEntries (fuel + 1) scanner) header s =
      some (((.recordEof, [], scanner), header), s) := by
  simp [nextEntries, nextEntry_eof hend]

/-- One `next_entry` reads one entry. -/
theorem nextEntry_ok (h : ReadInv InTree header s g)
    (hC : ∀ e, e ∈ C.entries ↔ Holds (view s) g e) {scanner : BplusTreeScanner} {b : ℕ}
    (hscan : ScansFrom s g C k b scanner) :
    ∃ e scanner', C.entries[k]? = some e ∧
      exec flat (nextEntry scanner) header s = some (((.success, some e.2, scanner'), header), s) ∧
      (k + 1 = b ∧ scanner'.endIndex = -1 ∨ ScansFrom s g C (k + 1) b scanner') := by
  obtain ⟨hlt, ⟨q, n, i, hq, hi, hk, hleft, hiter⟩, r, m, j, hr, hj, hb, hright, hend⟩ := hscan
  obtain ⟨e, he⟩ : ∃ e, n.items[i]? = some e := ⟨_, List.getElem?_eq_getElem hi⟩
  have hek : C.entries[k]? = some e := by
    rw [← hk, ← hq.get i hi]
    exact he
  have hend' : scanner.endIndex ≠ -1 := by
    rw [hend]
    omega
  -- the last place is reached in the right leaf only
  have hsame : k + 1 = b → q = r := fun hkb => hq.unique h hr hi hj (by omega)
  by_cases hstop : q = r ∧ scanner.iterIndex = scanner.endIndex
  · obtain ⟨rfl, hij⟩ := hstop
    rw [hiter] at hij
    have hne : (i : Int) ≠ -1 := by omega
    refine ⟨e, { scanner with endIndex := -1 }, hek, ?_, Or.inl ⟨?_, rfl⟩⟩
    · simp [nextEntry, hleft, hright, hq.page, hiter, he, ← hij, hne, exec_assert]
    · rw [hend, Int.ofNat_inj] at hij
      omega
  · have hstop' : ¬ (q = r ∧ (i : Int) = scanner.endIndex) := by rw [← hiter]; exact hstop
    have hkb : k + 1 < b := by
      refine lt_of_le_of_ne hlt fun hkb => hstop ⟨hsame hkb, ?_⟩
      rw [hiter, hend, Int.ofNat_inj]
      have := hsame hkb
      subst this
      omega
    by_cases hmore : (i : Int) < (n.items.length : Int) - 1
    · refine ⟨e, { scanner with iterIndex := i + 1 }, hek, ?_, Or.inr ⟨hkb, ?_, ?_⟩⟩
      · simp [nextEntry, hend', hleft, hright, hq.page, hiter, he, hstop', hmore, exec_assert]
      · exact ⟨q, n, i + 1, hq, by omega, by omega, hleft, by simp⟩
      · exact ⟨r, m, j, hr, hj, hb, hright, hend⟩
    · have hqr : q ≠ r := by
        rintro rfl
        refine hstop ⟨rfl, ?_⟩
        have hlen : n = m := by
          have := hq.page.symm.trans hr.page
          simpa using this
        subst hlen
        rw [hiter, hend]
        omega
      rcases hq.next h hC with ⟨-, htotal⟩ | ⟨hvalid, n', hn', hcut⟩
      · have := hr.cut_hi ▸ C.cut_le (x := g.hi r)
        omega
      · refine ⟨e, { scanner with leftFrame := some n.nextBrother, iterIndex := 0 }, hek, ?_,
          Or.inr ⟨hkb, ?_, ?_⟩⟩
        · simp [nextEntry, hend', hleft, hright, hq.page, hiter, he, hmore, hqr, hvalid,
            exec_assert]
        · exact ⟨n.nextBrother, n', 0, hn', hn'.pos, by omega, rfl, rfl⟩
        · exact ⟨r, m, j, hr, hj, hb, hright, hend⟩

/-- The walk to the end of the scan. By induction on the number of entries left. -/
theorem nextEntries_ok (h : ReadInv InTree header s g)
    (hC : ∀ e, e ∈ C.entries ↔ Holds (view s) g e) {b fuel : ℕ} {scanner : BplusTreeScanner}
    (hscan : ScansFrom s g C k b scanner) (hfuel : b - k < fuel) :
    ∃ scanner', exec flat (nextEntries fuel scanner) header s = some (((.recordEof,
      ((C.entries.take b).drop k).map Prod.snd, scanner'), header), s) := by
  induction fuel generalizing k scanner with
  | zero => omega
  | succ fuel ih =>
      obtain ⟨e, scanner', he, hexec, hnext⟩ := nextEntry_ok h hC hscan
      have hlt := hscan.lt
      have hhead : (C.entries.take b).drop k = e :: (C.entries.take b).drop (k + 1) := by
        rw [List.drop_eq_getElem?_toList_append, List.getElem?_take_of_lt hlt, he]
        rfl
      rcases hnext with ⟨hkb, hend⟩ | hscan'
      · have hnil : (C.entries.take b).drop (k + 1) = [] :=
          List.drop_eq_nil_of_le ((List.length_take_le _ _).trans hkb.ge)
        cases fuel with
        | zero => omega
        | succ fuel =>
            refine ⟨scanner', ?_⟩
            rw [nextEntries]
            simp [hexec, nextEntries_eof hend, hhead, hnil]
      · obtain ⟨scanner'', hrun⟩ := ih hscan' (by omega)
        refine ⟨scanner'', ?_⟩
        simp [nextEntries, hexec, hrun, hhead]

/-- `open` stands at the first entry of the range, or reports a scan without entries. -/
theorem openKeys_ok (ho : OrdersKeys comparator InTree)
    (h : ReadInv InTree header s g)
    (hC : ∀ e, e ∈ C.entries ↔ Holds (view s) g e) {fuel : ℕ}
    (hfuel : g.level header.rootPage < fuel) {left right : Option K} (hl : ∀ k ∈ left, InTree k)
    (hr : ∀ k ∈ right, InTree k)
    (hmono : C.cut (lowerPoint left) ≤ C.cut (upperPoint right))
    {scanner : BplusTreeScanner} (hscanner : scanner.endIndex = -1) :
    ∃ scanner', exec flat (openKeys comparator fuel left right scanner) header s =
        some (((.success, scanner'), header), s) ∧
      (C.cut (lowerPoint left) = C.cut (upperPoint right) ∧ scanner'.endIndex = -1 ∨
        ScansFrom s g C (C.cut (lowerPoint left)) (C.cut (upperPoint right)) scanner') := by
  have hbound := C.cut_le (x := upperPoint right)
  rcases openLeft_ok ho h hC hfuel left hl with ⟨q, hcut, hleft⟩ | ⟨q, n, i, hq, hi, hk, hleft⟩
  · exact ⟨{ scanner with leftFrame := some q }, by simp [openKeys, hleft],
      Or.inl ⟨by omega, hscanner⟩⟩
  rcases openRight_ok ho h hC hfuel right hr with ⟨r, hcut, hright⟩ | ⟨r, m, j, hr, hj, hb, hright⟩
  · refine ⟨{ scanner with
      leftFrame := some q, iterIndex := i, rightFrame := some r, endIndex := -1 },
      by simp [openKeys, hleft, hright], Or.inl ⟨by omega, rfl⟩⟩
  -- the two positions cross exactly when there is no entry between the bounds
  have hcross : (q = r ∧ i > j ∨ n.prevBrother = r) ↔
      C.cut (lowerPoint left) = C.cut (upperPoint right) := by
    rcases hq.prev h hC with ⟨hend, hcut⟩ | ⟨-, m', hm', hcut⟩
    · have hne : n.prevBrother ≠ r := fun heq => by
        have := h.tree.nonneg _ hr.mem
        rw [← heq, hend, bpInvalidPageNum] at this
        omega
      constructor
      · rintro (⟨rfl, hij⟩ | heq)
        · omega
        · exact absurd heq hne
      · intro heq
        have hqr : q = r := by
          by_contra hqr
          have : q = r := hq.unique h hr (i := i - 1) (j := j) (by omega) hj (by omega)
          exact hqr this
        subst hqr
        exact Or.inl ⟨rfl, by omega⟩
    · have hpos := hm'.pos
      constructor
      · rintro (⟨rfl, hij⟩ | rfl)
        · omega
        · have hpage : m = m' := by
            have := hr.page.symm.trans hm'.page
            simpa using this
          subst hpage
          omega
      · intro heq
        by_cases hzero : i = 0
        · refine Or.inr (hm'.unique h hr (i := m'.items.length - 1) (j := j) (by omega) hj ?_)
          omega
        · have hqr : q = r := hq.unique h hr (i := i - 1) (j := j) (by omega) hj (by omega)
          subst hqr
          exact Or.inl ⟨rfl, by omega⟩
  by_cases hempty : q = r ∧ i > j ∨ n.prevBrother = r
  · refine ⟨{ scanner with
      leftFrame := some q, iterIndex := i, rightFrame := some r, endIndex := -1 }, ?_,
      Or.inl ⟨hcross.mp hempty, rfl⟩⟩
    simp [openKeys, hleft, hright, hq.page, hempty]
  · refine ⟨{ scanner with
      leftFrame := some q, iterIndex := i, rightFrame := some r, endIndex := j }, ?_,
      Or.inr ⟨?_, ⟨q, n, i, hq, hi, hk, rfl, rfl⟩, ⟨r, m, j, hr, hj, hb, rfl, rfl⟩⟩⟩
    · simp [openKeys, hleft, hright, hq.page, hempty]
    · exact lt_of_le_of_ne hmono fun heq => hempty (hcross.mpr heq)

/-- **A scan between two keys reads the entries between them.** -/
theorem scanKeys_ok (ho : OrdersKeys comparator InTree)
    (h : ReadInv InTree header s g)
    (hC : ∀ e, e ∈ C.entries ↔ Holds (view s) g e) {fuel : ℕ}
    (hfuel : g.level header.rootPage < fuel) (hlength : C.entries.length < fuel)
    {left right : Option K} (hl : ∀ k ∈ left, InTree k) (hr : ∀ k ∈ right, InTree k)
    (hmono : C.cut (lowerPoint left) ≤ C.cut (upperPoint right)) {scanner : BplusTreeScanner}
    (hscanner : scanner.endIndex = -1) :
    ∃ scanner₁ scanner₂, exec flat (openKeys comparator fuel left right scanner) header s =
        some (((.success, scanner₁), header), s) ∧
      exec flat (nextEntries fuel scanner₁) header s = some (((.recordEof,
        (C.entries.filter fun e => lowerPoint left ≤ place e.1 ∧ place e.1 < upperPoint right).map
          Prod.snd, scanner₂), header), s) := by
  obtain ⟨scanner₁, hopen, hscan⟩ := openKeys_ok ho h hC hfuel hl hr hmono hscanner
  rw [C.filter_between]
  rcases hscan with ⟨hcut, hend⟩ | hscan
  · obtain ⟨fuel, rfl⟩ : ∃ f, fuel = f + 1 := ⟨fuel - 1, by omega⟩
    refine ⟨scanner₁, scanner₁, hopen, ?_⟩
    rw [nextEntries_eof hend, hcut, List.drop_eq_nil_of_le (List.length_take_le _ _)]
    rfl
  · have := C.cut_le (x := upperPoint right)
    have hmore : C.cut (upperPoint right) - C.cut (lowerPoint left) < fuel := by omega
    obtain ⟨scanner₂, hrun⟩ := nextEntries_ok h hC hscan hmore
    exact ⟨scanner₁, scanner₂, hopen, hrun⟩

end scan

/-! ## Nonempty trees -/

/-- The file is a nonempty tree with the entries `C`, of a height below `height`. How full its nodes
are is left open, except that no leaf is empty. -/
def HoldsTree (InTree : K → Prop) (header : IndexFileHeader) (s : FlatPool (IndexPage K))
    (height : ℕ) (C : SortedSet K) : Prop :=
  ∃ g, ReadInv InTree header s g ∧ (∀ e, e ∈ C.entries ↔ Holds (view s) g e) ∧
    g.level header.rootPage < height

/-- A file that represents a set that is not empty is one. -/
theorem RepresentsSet.holdsTree {InTree : K → Prop} {header : IndexFileHeader}
    {s : FlatPool (IndexPage K)} {height : ℕ} {C : SortedSet K}
    (h : RepresentsSet InTree header s height C) (hne : C.entries ≠ []) :
    HoldsTree InTree header s height C := by
  rcases h with ⟨-, hC⟩ | ⟨g, hinv, hC, hlt⟩
  · exact absurd (List.eq_nil_iff_forall_not_mem.mpr fun e he =>
      Set.eq_empty_iff_forall_notMem.mp hC e he) hne
  · exact ⟨g, hinv.readInv, hC, hlt⟩

/-! ## Scans of an `INTS` index -/

/-- The entries of the reference are those that were inserted. -/
theorem mem_reference {ops : List (IndexOp K)} {C : SortedSet K} {e : K × RID}
    (he : e ∈ (reference ops C).2.entries) :
    e ∈ C.entries ∨ IndexOp.insertEntry e.1 e.2 ∈ ops := by
  induction ops generalizing C with
  | nil => exact Or.inl he
  | cons op ops ih =>
      rcases ih (C := (op.reference C).2) he with hmem | hmem
      · cases op with
        | insertEntry key rid =>
            simp only [IndexOp.reference] at hmem
            split at hmem
            · exact Or.inl hmem
            next hnew =>
              rcases (SortedSet.mem_insert (h := hnew)).mp hmem with rfl | hmem
              · exact Or.inr (by simp)
              · exact Or.inl hmem
        | deleteEntry key =>
            simp only [IndexOp.reference] at hmem
            split at hmem
            · exact Or.inl (SortedSet.mem_erase.mp hmem).1
            · exact Or.inl hmem
      · exact Or.inr (List.mem_cons_of_mem _ hmem)

/-- The bounds of a scan exclude every value: the left one is above the right one, or equal to it
with an end that is not included. -/
def RejectedRange (left right : Option (Int × Bool)) : Prop :=
  ∃ l ∈ left, ∃ r ∈ right, r.1 < l.1 ∨ l.1 = r.1 ∧ ¬ (l.2 = true ∧ r.2 = true)

/-- A value lies within the bounds of a scan. -/
def InBounds (left right : Option (Int × Bool)) (a : Int) : Prop :=
  (∀ l ∈ left, if l.2 then l.1 ≤ a else l.1 < a) ∧ ∀ r ∈ right, if r.2 then a ≤ r.1 else a < r.1

instance (left right : Option (Int × Bool)) (a : Int) : Decidable (InBounds left right a) :=
  inferInstanceAs (Decidable (_ ∧ _))

instance (left right : Option (Int × Bool)) : Decidable (RejectedRange left right) :=
  decidable_of_iff (∃ l ∈ left.toList, ∃ r ∈ right.toList,
    r.1 < l.1 ∨ l.1 = r.1 ∧ ¬ (l.2 = true ∧ r.2 = true)) (by simp [RejectedRange])

/-- The attribute values of the operations and the bounds. -/
def scanValues (ops : List (EntryOp Int)) (left right : Option (Int × Bool)) : List Int :=
  ops.map (fun op => op.makeKey.attr) ++ left.toList.map Prod.fst ++ right.toList.map Prod.fst

/-- No difference of two values overflows, all record identifiers are in range and none of those
that are stored is the greatest one. -/
structure ScanComparable (ops : List (EntryOp Int)) (left right : Option (Int × Bool)) : Prop where
  /-- Differences fit in 32 bits. -/
  diff : ∀ a ∈ scanValues ops left right, ∀ b ∈ scanValues ops left right,
    -2147483648 ≤ a - b ∧ a - b ≤ 2147483647
  /-- Record identifiers are in range. -/
  rid : ∀ op ∈ ops, RIDInRange op.makeKey.rid
  /-- No stored identifier is the one that marks the end of a value. -/
  ridMax : ∀ op ∈ ops, ∀ userKey rid, op = .insertEntry userKey rid → rid ≠ RID.max

section ints

variable {ops : List (EntryOp Int)} {left right : Option (Int × Bool)}

/-- The keys of the operations and of the bounds can be compared. -/
theorem ScanComparable.orders (h : ScanComparable ops left right) :
    OrdersKeys (keyComparator compareInt)
      fun k => k.attr ∈ scanValues ops left right ∧ RIDInRange k.rid :=
  compareInt_orders (fun a b ha hb => h.diff a.attr ha.1 b.attr hb.1) fun _ ha => ha.2

/-- `open` rejects the ranges that exclude every value. -/
theorem ScanComparable.validRange_iff (h : ScanComparable ops left right) :
    validRange compareInt left right = false ↔ RejectedRange left right := by
  rcases left with _ | ⟨l, li⟩
  · simp [validRange, RejectedRange]
  · rcases right with _ | ⟨r, ri⟩
    · simp [validRange, RejectedRange]
    · have hdiff := h.diff l (by simp [scanValues]) r (by simp [scanValues])
      simp only [validRange, compareInt, wrap32_eq hdiff.1 hdiff.2, RejectedRange, Option.mem_def,
        Option.some.injEq, exists_eq_left', sub_eq_zero]
      cases li <;> cases ri <;> simp <;> omega

/-- The key of a left bound cuts the keys where the bound does. -/
theorem leftKey_le_iff {A : Type} [LinearOrder A] {e : IndexKey A} (hrid : RIDInRange e.rid)
    (hmax : e.rid ≠ RID.max) (l : A × Bool) :
    leftKey l ≤ e ↔ if l.2 then l.1 ≤ e.attr else l.1 < e.attr := by
  obtain ⟨a, p, i⟩ := e
  obtain ⟨l, inclusive⟩ := l
  simp only [RIDInRange] at hrid
  simp only [ne_eq, RID.max, RID.mk.injEq] at hmax
  rw [← not_lt, IndexKey.lt_iff]
  cases inclusive with
  | false =>
      have hbelow : p < 2147483647 ∨ p = 2147483647 ∧ i < 2147483647 := by omega
      simp only [leftKey, RID.max, Bool.false_eq_true, if_false, hbelow, and_true,
        ← le_iff_lt_or_eq, not_le]
  | true =>
      have habove : ¬ (p < 0 ∨ p = 0 ∧ i < 0) := by omega
      simp only [leftKey, RID.min, if_true, habove, and_false, or_false, not_lt]

/-- The key of a right bound cuts the keys where the bound does. -/
theorem lt_rightKey_iff {A : Type} [LinearOrder A] {e : IndexKey A} (hrid : RIDInRange e.rid)
    (hmax : e.rid ≠ RID.max) (r : A × Bool) :
    e < rightKey r ↔ if r.2 then e.attr ≤ r.1 else e.attr < r.1 := by
  obtain ⟨a, p, i⟩ := e
  obtain ⟨r, inclusive⟩ := r
  simp only [RIDInRange] at hrid
  simp only [ne_eq, RID.max, RID.mk.injEq] at hmax
  rw [IndexKey.lt_iff]
  cases inclusive with
  | false =>
      have habove : ¬ (p < 0 ∨ p = 0 ∧ i < 0) := by omega
      simp only [rightKey, RID.min, Bool.false_eq_true, if_false, habove, and_false, or_false]
  | true =>
      have hbelow : p < 2147483647 ∨ p = 2147483647 ∧ i < 2147483647 := by omega
      simp only [rightKey, RID.max, if_true, hbelow, and_true, ← le_iff_lt_or_eq]

/-- The point of a left bound cuts the entries where the bound does. -/
theorem lowerPoint_le_iff {A : Type} [LinearOrder A] {e : IndexKey A} (hrid : RIDInRange e.rid)
    (hmax : e.rid ≠ RID.max) (left : Option (A × Bool)) :
    lowerPoint (left.map leftKey) ≤ place e ↔
      ∀ l ∈ left, if l.2 then l.1 ≤ e.attr else l.1 < e.attr := by
  cases left with
  | none => simp [lowerPoint]
  | some l =>
      simp only [lowerPoint, Option.map_some, Option.elim_some, place_le_place, Option.mem_def,
        Option.some.injEq, forall_eq']
      exact leftKey_le_iff hrid hmax l

/-- The point of a right bound cuts the entries where the bound does. -/
theorem lt_upperPoint_iff {A : Type} [LinearOrder A] {e : IndexKey A} (hrid : RIDInRange e.rid)
    (hmax : e.rid ≠ RID.max) (right : Option (A × Bool)) :
    place e < upperPoint (right.map rightKey) ↔
      ∀ r ∈ right, if r.2 then e.attr ≤ r.1 else e.attr < r.1 := by
  cases right with
  | none => simpa [upperPoint] using place_lt_top e
  | some r =>
      simp only [upperPoint, Option.map_some, Option.elim_some, place_lt_place, Option.mem_def,
        Option.some.injEq, forall_eq']
      exact lt_rightKey_iff hrid hmax r

/-- The keys of an accepted range are in order. -/
theorem lowerPoint_le_upperPoint (h : ¬ RejectedRange left right) :
    lowerPoint (left.map leftKey) ≤ upperPoint (right.map rightKey) := by
  rcases left with _ | ⟨l, li⟩
  · exact bot_le
  · rcases right with _ | ⟨r, ri⟩
    · exact le_top
    · simp only [RejectedRange, Option.mem_def, Option.some.injEq, exists_eq_left'] at h
      simp only [lowerPoint, upperPoint, Option.map_some, Option.elim_some, place_le_place,
        leftKey, rightKey]
      rw [← not_lt, IndexKey.lt_iff]
      cases li <;> cases ri <;> simp [RID.min, RID.max] at h ⊢ <;> omega

/-- **Range scans of an `INTS` index are exact.** After any operations that leave the tree
nonempty, `open` rejects the ranges that exclude every value; otherwise it succeeds, and
`next_entry` gives the record identifiers of the entries within the bounds, in order, and then
reports the end. -/
theorem range_scan_exact (internalMaxSize leafMaxSize : Int)
    (hinternal : 6 ≤ (newFileHeader 4 internalMaxSize leafMaxSize).internalMaxSize)
    (hleaf : 4 ≤ (newFileHeader 4 internalMaxSize leafMaxSize).leafMaxSize)
    (ops : List (EntryOp Int)) (left right : Option (Int × Bool))
    (hops : ScanComparable ops left right)
    (hne : (reference (ops.map EntryOp.toIndexOp) .empty).2.entries ≠ []) (fuel : ℕ)
    (hfuel : ops.length < fuel) (header₀ : IndexFileHeader) :
    ∃ header s, exec flat (createAndRun internalMaxSize leafMaxSize fuel ops) header₀ .created =
        some (((.success, (reference (ops.map EntryOp.toIndexOp) .empty).1), header), s) ∧
      if RejectedRange left right then
        exec flat (openInts compareInt fuel left right .closed) header s =
          some (((.invalidArgument, { BplusTreeScanner.closed with inited := true }), header), s)
      else ∃ scanner₁ scanner₂,
        exec flat (openInts compareInt fuel left right .closed) header s =
          some (((.success, scanner₁), header), s) ∧
        exec flat (nextEntries fuel scanner₁) header s = some (((.recordEof,
          ((reference (ops.map EntryOp.toIndexOp) .empty).2.entries.filter
            fun e => InBounds left right e.1.attr).map Prod.snd, scanner₂), header), s) := by
  have ho := hops.orders
  obtain ⟨s₀, hcreate, h₀⟩ := create_ok
    (fun k : IndexKey Int => k.attr ∈ scanValues ops left right ∧ RIDInRange k.rid) hinternal hleaf
    header₀
  obtain ⟨header, s, hrun, hrep, -⟩ := runOps_ok ho (ops.map EntryOp.toIndexOp) h₀ (fun o ho => by
    obtain ⟨op, hop, rfl⟩ := List.mem_map.mp ho
    rw [op.key_toIndexOp]
    refine ⟨?_, hops.rid op hop⟩
    simp only [scanValues, List.mem_append, List.mem_map]
    exact Or.inl (Or.inl ⟨op, hop, rfl⟩)) fuel (by simpa using hfuel.le)
  rw [List.length_map, Nat.zero_add] at hrep
  have hlength := length_reference_run_le (ops.map EntryOp.toIndexOp) SortedSet.empty
  rw [List.length_map] at hlength
  have hzero : (SortedSet.empty : SortedSet (IndexKey Int)).entries.length = 0 := rfl
  have hstored : ∀ e ∈ (reference (ops.map EntryOp.toIndexOp) .empty).2.entries,
      RIDInRange e.1.rid ∧ e.1.rid ≠ RID.max := by
    intro e he
    have hmem := (mem_reference he).resolve_left (by simp [SortedSet.empty])
    obtain ⟨op, hop, heq⟩ := List.mem_map.mp hmem
    cases op with
    | insertEntry userKey rid =>
        simp only [EntryOp.toIndexOp, EntryOp.makeKey, IndexOp.insertEntry.injEq] at heq
        rw [← heq.1]
        exact ⟨hops.rid _ hop, hops.ridMax _ hop userKey rid rfl⟩
    | deleteEntry userKey rid => simp [EntryOp.toIndexOp] at heq
  refine ⟨header, s, by simp [createAndRun, hcreate, hrun], ?_⟩
  split
  case isTrue hrej =>
    have hvalid := hops.validRange_iff.mpr hrej
    simp [openInts, BplusTreeScanner.closed, hvalid]
  case isFalse hacc =>
    have hvalid : validRange compareInt left right = true := by
      rw [← Bool.not_eq_false, hops.validRange_iff]
      exact hacc
    rcases hrep with ⟨hempty, hC⟩ | ⟨g, hinv, hC, hlt⟩
    · exact absurd (List.eq_nil_iff_forall_not_mem.mpr fun e he =>
        Set.eq_empty_iff_forall_notMem.mp hC e he) hne
    · have hl : ∀ k ∈ left.map leftKey,
          k.attr ∈ scanValues ops left right ∧ RIDInRange k.rid := by
        rcases left with _ | ⟨l, li⟩
        · simp
        · cases li <;> simp [scanValues, leftKey, RIDInRange, RID.min, RID.max]
      have hr : ∀ k ∈ right.map rightKey,
          k.attr ∈ scanValues ops left right ∧ RIDInRange k.rid := by
        rcases right with _ | ⟨r, ri⟩
        · simp
        · cases ri <;> simp [scanValues, rightKey, RIDInRange, RID.min, RID.max]
      let scanner : BplusTreeScanner := { BplusTreeScanner.closed with inited := true }
      have hend : scanner.endIndex = -1 := rfl
      have hlevel : g.level header.rootPage < fuel := by omega
      obtain ⟨scanner₁, scanner₂, hopen, hscan⟩ := scanKeys_ok ho hinv.readInv hC hlevel
        (by omega) hl hr (SortedSet.cut_mono _ (lowerPoint_le_upperPoint hacc)) hend
      refine ⟨scanner₁, scanner₂, ?_, ?_⟩
      · simp [openInts, BplusTreeScanner.closed, hvalid] at hopen ⊢
        exact hopen
      · rw [hscan]
        have hfilter : ∀ e ∈ (reference (ops.map EntryOp.toIndexOp) .empty).2.entries,
            (decide (lowerPoint (left.map leftKey) ≤ place e.1 ∧
              place e.1 < upperPoint (right.map rightKey))) =
              decide (InBounds left right e.1.attr) := by
          intro e he
          obtain ⟨hrid, hmax⟩ := hstored e he
          rw [decide_eq_decide, lowerPoint_le_iff hrid hmax, lt_upperPoint_iff hrid hmax]
          rfl
        rw [List.filter_congr hfilter]

/-- A scan of three entries from an excluded bound on. -/
theorem range_scan_exact_run : ∃ header s scanner₁ scanner₂,
    exec flat (openInts compareInt 5 (some (1, false)) none .closed) header s =
      some (((.success, scanner₁), header), s) ∧
    exec flat (nextEntries 5 scanner₁) header s =
      some (((.recordEof, [⟨3, 1⟩, ⟨3, 2⟩], scanner₂), header), s) := by
  obtain ⟨header, s, -, hscan⟩ := range_scan_exact (-1) (-1) (by decide) (by decide)
    [.insertEntry 1 ⟨3, 0⟩, .insertEntry 4 ⟨3, 2⟩, .insertEntry 2 ⟨3, 1⟩] (some (1, false)) none
    ⟨by decide, by decide, by simp [RID.max]⟩ (by decide) 5 (by decide) default
  rw [if_neg (by decide)] at hscan
  obtain ⟨scanner₁, scanner₂, hopen, hnext⟩ := hscan
  exact ⟨header, s, scanner₁, scanner₂, hopen, hnext⟩

end ints

end Miniob.Storage.Index
