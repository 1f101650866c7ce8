import Miniob.Storage.Index.CharsScan
import Miniob.Storage.Index.EvictedRuns
import Miniob.Storage.Index.Pins

/-!
# An index that is closed and opened again

What a client does with an index on a column of any type: it inserts and deletes entries, asks for
the entries of a value or of a range, writes the pages to disk, and closes the file and opens it
again with another handler. A handler gets its copy of the index header from the first page, and
frames of the closed file may stay behind in the pool.

* `openIndex`: the header of a handler that opens a file.
* `ClientCall.reference`: what each call does to a sorted set, and what it answers.
* `openRange_ok`, `getEntry_ok`: scans and lookups read the entries of the set.
* `ClientCall.run_ok`: a call on the file does what it does to the set.
* `reopened_index`: so do whole runs, whatever is evicted in between, with any number of handlers.
  The file is written to disk before it is closed: `close` does not do so itself.
-/

namespace Miniob.Storage.BufferPool

variable {N : Type}

/-- The file is closed and opened again. A frame of the closed file may stay in the pool, and is
found again if the file gets the same descriptor.
Source: `disk_buffer_pool.cpp`, `DiskBufferPool::close_file`, `DiskBufferPool::open_file` -/
def CachedPool.closeAndOpen (kept : Int → Bool) (c : CachedPool N) : CachedPool N :=
  { c with
    frames := fun p => if kept p then c.frames p else none
    disposedPages := [] }

/-- Nothing is lost when all pages are on disk. -/
theorem Agrees.closeAndOpen {s : FlatPool N} {c : CachedPool N} (h : Agrees s .quiet c)
    (hdisk : ∀ p, c.disk p = s.page p) (kept : Int → Bool) :
    Agrees s .quiet (c.closeAndOpen kept) where
  pageCount := h.pageCount
  bitmap := h.bitmap
  disposed := rfl
  content p := by
    have hcontent := h.content p
    unfold CachedPool.content at hcontent
    cases hkept : kept p with
    | true => simpa [CachedPool.content, CachedPool.closeAndOpen, hkept] using hcontent
    | false => simpa [CachedPool.content, CachedPool.closeAndOpen, hkept] using hdisk p
  pins p := by
    have hpins := h.pins p
    unfold CachedPool.pins at hpins
    cases hkept : kept p with
    | true => simpa [CachedPool.pins, CachedPool.closeAndOpen, hkept] using hpins
    | false => simp [CachedPool.pins, CachedPool.closeAndOpen, hkept, Marks.quiet]
  synced p f hf hd ht := by
    unfold CachedPool.closeAndOpen at hf
    cases hkept : kept p with
    | true =>
      simp only [hkept, if_true] at hf
      exact h.synced p f hf hd ht
    | false => simp [hkept] at hf
  dirty _ hp := nomatch hp
  touched _ hp := nomatch hp
  marked _ hp := nomatch hp

end Miniob.Storage.BufferPool

namespace Miniob.Storage.Index

open Miniob.Common Miniob.Lib
open Miniob.Storage.BufferPool (FlatPool flat tracked evicting CachedPool Marks Handles Agrees
  run_evicting)

/-! ## Calls -/

/-- The header of a handler that opens a file.
Source: `bplus_tree.cpp`, `BplusTreeHandler::open` -/
def openIndex {K : Type} : TreeM K RC := do
  let rc ← getThisPage firstIndexPage
  if rc ≠ .success then
    return rc
  match ← page firstIndexPage with
  | .header h => set h
  | _ => TreeM.fail
  let _ ← unpinPage firstIndexPage
  return .success

namespace AttrType

/-- The bytes that a client passes for a value. -/
def userKey : (type : AttrType) → type.KeyValue → type.UserKey
  | ints, v => v
  | floats, v => v
  | chars _, v => v.bytes

/-- A bound as a client passes it. -/
def userBound (type : AttrType) (bound : type.KeyValue × Bool) : type.UserKey × Bool :=
  (type.userKey bound.1, bound.2)

/-- A whole scan: `open`, `next_entry` until it does not succeed, `close`. -/
def scan (type : AttrType) (fuel : ℕ) (left right : Option (type.UserKey × Bool)) :
    TreeM (IndexKey type.KeyValue) (RC × RC × List RID) := do
  let (rc, scanner) ← type.openScanner fuel left right .closed
  if rc ≠ .success then
    let _ ← closeScanner scanner
    return (rc, rc, [])
  let (rcEnd, rids, scanner) ← nextEntries fuel scanner
  let _ ← closeScanner scanner
  return (rc, rcEnd, rids)

/-- The place of a `float` in the order of the values. The bits of positive numbers grow with the
number, those of negative ones behind the sign with its absolute value. -/
def floatPlace (x : Float32) : ℤ :=
  if x.toBits < 2147483648 then x.toBits.toNat else 2147483647 - (x.toBits.toNat : ℤ)

theorem floatPlace_injective : Function.Injective floatPlace := by
  intro x y h
  have hbits : x.toBits.toNat = y.toBits.toNat := by
    unfold floatPlace at h
    simp only [UInt32.lt_iff_toNat_lt, show (2147483648 : UInt32).toNat = 2147483648 from rfl] at h
    split_ifs at h <;> omega
  rcases x with ⟨⟨b, hb⟩⟩
  rcases y with ⟨⟨c, hc⟩⟩
  obtain rfl : b = c := UInt32.toNat_inj.mp hbits
  rfl

instance : (type : AttrType) → LinearOrder type.KeyValue
  | ints => Int.instLinearOrder
  | floats => LinearOrder.lift' floatPlace floatPlace_injective
  | chars n => inferInstanceAs (LinearOrder (CharsValue n))

/-- No difference of two integers overflows, and floats are compared by their order: the rounded
difference of two of them is further from zero than `EPSILON`. -/
def Comparable : (type : AttrType) → List type.KeyValue → Prop
  | ints, values => ∀ v ∈ values, ∀ w ∈ values, FitsInt (v - w)
  | floats, values => ∀ v ∈ values, ∀ w ∈ values,
    SignOfOrder (compareFloat v w) (floatPlace v) (floatPlace w)
  | chars _, _ => True

/-- Such values are compared by their order. -/
theorem Comparable.sign {type : AttrType} {values : List type.KeyValue}
    (h : type.Comparable values) {v w : type.KeyValue} (hv : v ∈ values) (hw : w ∈ values) :
    SignOfOrder (type.compare v w) v w := by
  cases type with
  | ints => exact compareInt_sign (h v hv w hw)
  | chars n => exact compareChars_sign v w
  | floats =>
    obtain ⟨hneg, hzero, hpos⟩ := h v hv w hw
    let : LinearOrder Float32 := LinearOrder.lift' floatPlace floatPlace_injective
    exact ⟨hneg, hzero.trans floatPlace_injective.eq_iff, hpos⟩

end AttrType

/-- What a client does with an index. -/
inductive ClientCall (type : AttrType)
  /-- `insert_entry(user_key, rid)` -/
  | insertEntry (userKey : type.KeyValue) (rid : RID)
  /-- `delete_entry(user_key, rid)` -/
  | deleteEntry (userKey : type.KeyValue) (rid : RID)
  /-- `get_entry(user_key, key_len, rids)` -/
  | getEntry (userKey : type.KeyValue)
  /-- A scan from `open` to `close`. -/
  | scan (left right : Option (type.KeyValue × Bool))
  /-- `sync()` -/
  | sync

/-- What a call reports. -/
inductive ClientAnswer
  /-- A return code. -/
  | code (rc : RC)
  /-- The code of `get_entry` and the record identifiers. -/
  | found (rc : RC) (rids : List RID)
  /-- The codes of `open` and of the last `next_entry`, and what the scan returned. -/
  | scanned (rcOpen rcEnd : RC) (rids : List RID)
  deriving DecidableEq, Repr

/-- A call on the file. -/
def ClientCall.run {type : AttrType} (fuel : ℕ) :
    ClientCall type → TreeM (IndexKey type.KeyValue) ClientAnswer
  | insertEntry userKey rid => do
    return .code (← Index.insertEntry (keyComparator type.compare) fuel ⟨userKey, rid⟩ rid)
  | deleteEntry userKey rid => do
    return .code (← Index.deleteEntry (keyComparator type.compare) fuel ⟨userKey, rid⟩)
  | getEntry userKey => do
    let (rc, rids) ← Index.getEntry type fuel (type.userKey userKey)
    return .found rc rids
  | scan left right => do
    let (rcOpen, rcEnd, rids) ←
      type.scan fuel (left.map type.userBound) (right.map type.userBound)
    return .scanned rcOpen rcEnd rids
  | sync => do
    return .code (← Index.sync)

/-! ## What the calls are for -/

section reference

variable {A : Type} [LinearOrder A]

/-- The record identifiers of the entries within the bounds, in the order of the keys. -/
def ridsWithin (C : SortedSet (IndexKey A)) (left right : Option (A × Bool)) : List RID :=
  (C.entries.filter fun e => Within left right e.1.attr).map Prod.snd

/-- The record identifiers of the entries of a value. -/
theorem ridsWithin_self (C : SortedSet (IndexKey A)) (a : A) :
    ridsWithin C (some (a, true)) (some (a, true)) =
      (C.entries.filter fun e => e.1.attr = a).map Prod.snd := by
  refine congrArg (List.map Prod.snd) (List.filter_congr fun e _ => decide_eq_decide.mpr ?_)
  simp only [Within, Option.mem_def, Option.some.injEq, forall_eq', if_true]
  exact ⟨fun h => le_antisymm h.2 h.1, fun h => ⟨h.ge, h.le⟩⟩

end reference

/-- What a call does to a sorted set, and what it answers. -/
def ClientCall.reference {type : AttrType} (C : SortedSet (IndexKey type.KeyValue)) :
    ClientCall type → ClientAnswer × SortedSet (IndexKey type.KeyValue)
  | insertEntry userKey rid =>
    (.code ((IndexOp.insertEntry ⟨userKey, rid⟩ rid).reference C).1,
      ((IndexOp.insertEntry ⟨userKey, rid⟩ rid).reference C).2)
  | deleteEntry userKey rid =>
    (.code ((IndexOp.deleteEntry ⟨userKey, rid⟩).reference C).1,
      ((IndexOp.deleteEntry ⟨userKey, rid⟩).reference C).2)
  | getEntry userKey =>
    (if C.entries = [] then .found .empty []
      else .found .success ((C.entries.filter fun e => e.1.attr = userKey).map Prod.snd), C)
  | scan left right =>
    (if Excludes left right then .scanned .invalidArgument .invalidArgument []
      else if C.entries = [] then .scanned .empty .empty []
      else .scanned .success .recordEof (ridsWithin C left right), C)
  | sync => (.code .success, C)

/-! ## Scans -/

/-- A key with one of these values. -/
def ValueKey {A : Type} (known : A → Prop) (k : IndexKey A) : Prop :=
  known k.attr ∧ RIDInRange k.rid

/-- A record identifier that can be stored: the greatest one marks the end of a value. -/
def Storable (rid : RID) : Prop := RIDInRange rid ∧ rid ≠ RID.max

instance (rid : RID) : Decidable (Storable rid) := inferInstanceAs (Decidable (_ ∧ _))

section scans

variable {A : Type} [LinearOrder A] {compare : A → A → Int} {known : A → Prop}
  {header : IndexFileHeader} {s : FlatPool (IndexPage (IndexKey A))}
  {C : SortedSet (IndexKey A)} {left right : Option (A × Bool)} {fuel height : ℕ}

/-- Keys with values that are compared by their order are compared by theirs. -/
theorem valueKey_orders (hsign : ∀ v w, known v → known w → SignOfOrder (compare v w) v w) :
    OrdersKeys (keyComparator compare) (ValueKey known) := by
  have hkeys : ∀ a b : IndexKey A, ValueKey known a → ValueKey known b →
      SignOfOrder (keyComparator compare a b) a b := by
    intro a b ha hb
    have h := keyComparator_sign (f := id) (hsign _ _ ha.1 hb.1) fun _ => ha.2.fits hb.2
    refine ⟨h.neg, h.zero.trans ?_, h.pos⟩
    obtain ⟨v, p, i⟩ := a
    obtain ⟨w, q, j⟩ := b
    simp [ridPlace]
  exact ⟨fun a b ha hb => (hkeys a b ha hb).neg.mpr, fun a ha => (hkeys a a ha ha).zero.mpr rfl,
    fun a b ha hb => (hkeys a b ha hb).pos.mpr⟩

/-- What is stored after an operation of the tree can be stored if its own key can. -/
theorem storable_reference {op : IndexOp (IndexKey A)}
    (hstored : ∀ e ∈ C.entries, Storable e.1.rid)
    (hop : ∀ key rid, op = .insertEntry key rid → Storable key.rid) :
    ∀ e ∈ (op.reference C).2.entries, Storable e.1.rid := by
  intro e he
  have hmem : e ∈ C.entries ∨ IndexOp.insertEntry e.1 e.2 ∈ [op] := mem_reference he
  rcases hmem with hmem | hmem
  · exact hstored e hmem
  · exact hop _ _ (List.mem_singleton.mp hmem).symm

/-- `open` rejects the bounds that exclude every value. -/
theorem validRange_iff
    (hsign : ∀ l ∈ left, ∀ r ∈ right, SignOfOrder (compare l.1 r.1) l.1 r.1) :
    validRange compare left right = true ↔ ¬ Excludes left right := by
  rcases left with _ | ⟨l, li⟩
  · simp [validRange, Excludes]
  · rcases right with _ | ⟨r, ri⟩
    · simp [validRange, Excludes]
    · have h := hsign _ rfl _ rfl
      simp only [validRange, Excludes, gt_iff_lt, Option.mem_def, Option.some.injEq,
        exists_eq_left', ← h.pos, ← h.zero]
      cases li <;> cases ri <;> simp

/-- The keys of the bounds of an accepted range are in order. -/
theorem lowerPoint_le_of_accepted (h : ¬ Excludes left right) :
    lowerPoint (left.map leftKey) ≤ upperPoint (right.map rightKey) := by
  rcases left with _ | ⟨l, li⟩
  · exact bot_le
  · rcases right with _ | ⟨r, ri⟩
    · exact le_top
    · simp only [Excludes, Option.mem_def, Option.some.injEq, exists_eq_left', not_or,
        not_lt, not_and_not_right] at h
      obtain ⟨hle, hboth⟩ := h
      simp only [lowerPoint, upperPoint, Option.map_some, Option.elim_some, place_le_place]
      rw [← not_lt, IndexKey.lt_iff]
      rintro (hlt | ⟨heq, hrid⟩)
      · exact absurd hlt hle.not_gt
      · obtain ⟨rfl, rfl⟩ := hboth heq.symm
        simp [leftKey, rightKey, RID.min, RID.max] at hrid

omit [LinearOrder A] in
/-- The keys of bounds have record identifiers in range. -/
theorem valueKey_bounds {b : A × Bool} (hb : known b.1) :
    ValueKey known (leftKey b) ∧ ValueKey known (rightKey b) := by
  obtain ⟨a, inclusive⟩ := b
  have hmin : RIDInRange RID.min := by decide
  have hmax : RIDInRange RID.max := by decide
  cases inclusive with
  | true => exact ⟨⟨hb, hmin⟩, hb, hmax⟩
  | false => exact ⟨⟨hb, hmax⟩, hb, hmin⟩

/-- The scanner after `open` has checked the bounds. -/
def openedScanner : BplusTreeScanner := { BplusTreeScanner.closed with inited := true }

omit [LinearOrder A] in
/-- An accepted range of an index without entries. -/
theorem openInts_empty (hroot : header.rootPage = bpInvalidPageNum)
    (hvalid : validRange compare left right = true) :
    exec flat (openInts compare fuel left right .closed) header s =
      some (((.empty, openedScanner), header), s) := by
  rcases left with _ | left
  · simp [openInts, BplusTreeScanner.closed, hvalid, openKeys, openLeft, leftMostPage,
      findLeafInternal_empty hroot, openedScanner]
  · simp [openInts, BplusTreeScanner.closed, hvalid, openKeys, openLeft, Index.findLeaf,
      findLeafInternal_empty hroot, openedScanner]

/-- **A range.** Unless the index is empty, `open` succeeds and `next_entry` reads the entries
within the bounds. -/
theorem openRange_ok (hsign : ∀ v w, known v → known w → SignOfOrder (compare v w) v w)
    (h : RepresentsSet (ValueKey known) header s height C)
    (hstored : ∀ e ∈ C.entries, Storable e.1.rid) (hfuel : height ≤ fuel)
    (hlength : C.entries.length < fuel) (hl : ∀ l ∈ left, known l.1)
    (hr : ∀ r ∈ right, known r.1) (hacc : ¬ Excludes left right) :
    C.entries = [] ∧ exec flat (openInts compare fuel left right .closed) header s =
        some (((.empty, openedScanner), header), s) ∨
      C.entries ≠ [] ∧ ∃ scanner₁ scanner₂,
        exec flat (openInts compare fuel left right .closed) header s =
          some (((.success, scanner₁), header), s) ∧
        exec flat (nextEntries fuel scanner₁) header s =
          some (((.recordEof, ridsWithin C left right, scanner₂), header), s) := by
  have hvalid : validRange compare left right = true :=
    (validRange_iff fun l hleft r hright => hsign _ _ (hl l hleft) (hr r hright)).mpr hacc
  rcases h with ⟨hempty, hC⟩ | ⟨g, hinv, hC, hlt⟩
  · refine Or.inl ⟨List.eq_nil_iff_forall_not_mem.mpr fun e he => ?_,
      openInts_empty hempty.root hvalid⟩
    exact Set.eq_empty_iff_forall_notMem.mp hC e he
  · have hleft : ∀ k ∈ left.map leftKey, ValueKey known k := by
      rintro k hk
      obtain ⟨l, hmem, rfl⟩ := Option.map_eq_some_iff.mp hk
      exact (valueKey_bounds (hl l hmem)).1
    have hright : ∀ k ∈ right.map rightKey, ValueKey known k := by
      rintro k hk
      obtain ⟨r, hmem, rfl⟩ := Option.map_eq_some_iff.mp hk
      exact (valueKey_bounds (hr r hmem)).2
    have hend : openedScanner.endIndex = -1 := rfl
    have hlevel : g.level header.rootPage < fuel := by omega
    obtain ⟨scanner₁, scanner₂, hopen, hscan⟩ := scanKeys_ok (valueKey_orders hsign) hinv.readInv hC
      hlevel hlength hleft hright (C.cut_mono (lowerPoint_le_of_accepted hacc)) hend
    have hrep : RepresentsSet (ValueKey known) header s height C := Or.inr ⟨g, hinv, hC, hlt⟩
    refine Or.inr ⟨fun hnil => hinv.tree.root_ne_invalid (hrep.root_iff.mpr hnil), scanner₁,
      scanner₂, ?_, ?_⟩
    · simp [openInts, BplusTreeScanner.closed, openedScanner, hvalid] at hopen ⊢
      exact hopen
    · rw [hscan, ridsWithin]
      have hfilter : ∀ e ∈ C.entries, (decide (lowerPoint (left.map leftKey) ≤ place e.1 ∧
          place e.1 < upperPoint (right.map rightKey))) = decide (Within left right e.1.attr) := by
        intro e he
        obtain ⟨hrid, hmax⟩ := hstored e he
        rw [decide_eq_decide, lowerPoint_le_iff hrid hmax, lt_upperPoint_iff hrid hmax]
        rfl
      rw [List.filter_congr hfilter]

/-- `close` changes no page. -/
theorem exec_closeScanner {K : Type} (header : IndexFileHeader) (s : FlatPool (IndexPage K))
    (scanner : BplusTreeScanner) :
    ∃ scanner', exec flat (closeScanner scanner) header s =
      some (((.success, scanner'), header), s) := by
  unfold closeScanner
  rcases scanner.leftFrame with _ | q <;> rcases scanner.rightFrame with _ | r <;> simp

/-- **A whole scan.** It is rejected if its bounds exclude every value, and reports an empty index. -/
theorem scanInts_ok (hsign : ∀ v w, known v → known w → SignOfOrder (compare v w) v w)
    (h : RepresentsSet (ValueKey known) header s height C)
    (hstored : ∀ e ∈ C.entries, Storable e.1.rid) (hfuel : height ≤ fuel)
    (hlength : C.entries.length < fuel) (hl : ∀ l ∈ left, known l.1)
    (hr : ∀ r ∈ right, known r.1) :
    exec flat (scanInts compare fuel left right) header s =
      some ((if Excludes left right then (.invalidArgument, .invalidArgument, [])
        else if C.entries = [] then (.empty, .empty, [])
        else (.success, .recordEof, ridsWithin C left right), header), s) := by
  by_cases hacc : Excludes left right
  · have hvalid : validRange compare left right = false := by
      rw [← Bool.not_eq_true, validRange_iff fun l hleft r hright =>
        hsign _ _ (hl l hleft) (hr r hright)]
      exact not_not.mpr hacc
    have hopen : exec flat (openInts compare fuel left right .closed) header s =
        some (((.invalidArgument, openedScanner), header), s) := by
      simp [openInts, BplusTreeScanner.closed, openedScanner, hvalid]
    obtain ⟨scanner', hclose⟩ := exec_closeScanner header s openedScanner
    rw [if_pos hacc]
    simp [scanInts, hopen, hclose]
  · rw [if_neg hacc]
    rcases openRange_ok hsign h hstored hfuel hlength hl hr hacc
      with ⟨hnil, hopen⟩ | ⟨hne, scanner₁, scanner₂, hopen, hscan⟩
    · obtain ⟨scanner', hclose⟩ := exec_closeScanner header s openedScanner
      rw [if_pos hnil]
      simp [scanInts, hopen, hclose]
    · obtain ⟨scanner', hclose⟩ := exec_closeScanner header s scanner₂
      rw [if_neg hne]
      simp [scanInts, hopen, hscan, hclose]

end scans

section lookups

variable {type : AttrType} {values : List type.KeyValue} {header : IndexFileHeader}
  {s : FlatPool (IndexPage (IndexKey type.KeyValue))} {C : SortedSet (IndexKey type.KeyValue)}
  {left right : Option (type.KeyValue × Bool)} {fuel height : ℕ}

/-- A string that fits in the column is a bound as it is. -/
theorem fixedBound_bytes {n : ℕ} (v : CharsValue n × Bool) (wantGreater : Bool) :
    fixedBound n wantGreater ((AttrType.chars n).userBound v) = v := by
  obtain ⟨hbytes, hinclusive⟩ := @fixedBound_of_le n ((AttrType.chars n).userBound v)
    v.1.no_zero v.1.length_le wantGreater
  exact Prod.ext (CharsValue.bytes_injective hbytes) hinclusive

/-- The bounds are checked by the beginnings of the strings, which are the strings. -/
theorem validRange_bytes {n : ℕ} (left right : Option (CharsValue n × Bool)) :
    validRange (strncmp n) (left.map (AttrType.chars n).userBound)
      (right.map (AttrType.chars n).userBound) = validRange compareChars left right := by
  rcases left with _ | l
  · rfl
  · rcases right with _ | r
    · rfl
    · have hbytes := strncmp_sign n l.1.bytes r.1.bytes
      rw [List.take_of_length_le l.1.length_le, List.take_of_length_le r.1.length_le,
        stringOf_of_no_zero l.1.no_zero, stringOf_of_no_zero r.1.no_zero] at hbytes
      have hvalue := compareChars_sign l.1 r.1
      have hpos : (0 < strncmp n l.1.bytes r.1.bytes) = (0 < compareChars l.1 r.1) :=
        propext (hbytes.pos.trans hvalue.pos.symm)
      have hzero : (strncmp n l.1.bytes r.1.bytes = 0) = (compareChars l.1 r.1 = 0) :=
        propext (hbytes.zero.trans (CharsValue.bytes_injective.eq_iff.trans hvalue.zero.symm))
      simp only [validRange, Option.map_some, AttrType.userBound, AttrType.userKey, gt_iff_lt,
        hpos, hzero]

/-- `open` with values of the column for bounds. -/
theorem openScanner_eq (left right : Option (type.KeyValue × Bool)) (scanner : BplusTreeScanner) :
    type.openScanner fuel (left.map type.userBound) (right.map type.userBound) scanner =
      openInts type.compare fuel left right scanner := by
  cases type with
  | ints =>
    have hid : AttrType.ints.userBound = id := rfl
    rw [hid, Option.map_id]
    rfl
  | floats =>
    have hid : AttrType.floats.userBound = id := rfl
    rw [hid, Option.map_id]
    rfl
  | chars n =>
    show openChars n fuel (left.map (AttrType.chars n).userBound)
        (right.map (AttrType.chars n).userBound) scanner =
      openInts compareChars fuel left right scanner
    have hvalid := @validRange_bytes n left right
    have hleft : ∀ bound : Option (CharsValue n × Bool),
        (bound.map (AttrType.chars n).userBound).map
          (fun bound => leftKey (fixedBound n true bound)) = bound.map leftKey := fun bound => by
      simp only [Option.map_map, Function.comp_def, fixedBound_bytes]
    have hright : ∀ bound : Option (CharsValue n × Bool),
        (bound.map (AttrType.chars n).userBound).map
          (fun bound => rightKey (fixedBound n false bound)) = bound.map rightKey := fun bound => by
      simp only [Option.map_map, Function.comp_def, fixedBound_bytes]
    unfold openChars openInts
    rw [hvalid, hleft, hright]

/-- A whole scan with values of the column for bounds. -/
theorem scan_eq (left right : Option (type.KeyValue × Bool)) :
    type.scan fuel (left.map type.userBound) (right.map type.userBound) =
      scanInts type.compare fuel left right := by
  unfold AttrType.scan scanInts
  rw [openScanner_eq]

/-- **`get_entry` finds the record identifiers of a value**, in the order of the keys. An empty
index is reported. -/
theorem getEntry_ok (hvalues : type.Comparable values)
    (h : RepresentsSet (ValueKey (· ∈ values)) header s height C)
    (hstored : ∀ e ∈ C.entries, Storable e.1.rid) (hfuel : height ≤ fuel)
    (hlength : C.entries.length < fuel) {userKey : type.KeyValue} (hkey : userKey ∈ values) :
    exec flat (getEntry type fuel (type.userKey userKey)) header s =
      some ((if C.entries = [] then (.empty, [])
        else (.success, (C.entries.filter fun e => e.1.attr = userKey).map Prod.snd), header),
        s) := by
  have hbound : ∀ b ∈ some (userKey, true), b.1 ∈ values := by
    rintro b hb
    cases hb
    exact hkey
  have hacc : ¬ Excludes (some (userKey, true)) (some (userKey, true)) := by
    simp [Excludes]
  have hopens := openRange_ok (fun _ _ hv hw => hvalues.sign hv hw) h hstored hfuel hlength hbound
    hbound hacc
  rw [← openScanner_eq, ridsWithin_self] at hopens
  have hsome : (some (userKey, true)).map type.userBound = some (type.userKey userKey, true) := rfl
  rw [hsome] at hopens
  rcases hopens with ⟨hnil, hopen⟩ | ⟨hne, scanner₁, scanner₂, hopen, hscan⟩
  · obtain ⟨scanner', hclose⟩ := exec_closeScanner header s openedScanner
    rw [if_pos hnil]
    simp [getEntry, hopen, hclose]
  · obtain ⟨scanner', hclose⟩ := exec_closeScanner header s scanner₂
    rw [if_neg hne]
    simp [getEntry, hopen, hscan, hclose]

/-- **A whole scan** answers as the reference does. -/
theorem scan_ok (hvalues : type.Comparable values)
    (h : RepresentsSet (ValueKey (· ∈ values)) header s height C)
    (hstored : ∀ e ∈ C.entries, Storable e.1.rid) (hfuel : height ≤ fuel)
    (hlength : C.entries.length < fuel) (hl : ∀ l ∈ left, l.1 ∈ values)
    (hr : ∀ r ∈ right, r.1 ∈ values) :
    exec flat (type.scan fuel (left.map type.userBound) (right.map type.userBound)) header s =
      some ((if Excludes left right then (.invalidArgument, .invalidArgument, [])
        else if C.entries = [] then (.empty, .empty, [])
        else (.success, .recordEof, ridsWithin C left right), header), s) := by
  rw [scan_eq]
  exact scanInts_ok (fun _ _ hv hw => hvalues.sign hv hw) h hstored hfuel hlength hl hr

end lookups

/-! ## One call -/

/-- The call lets a changed page go without marking it dirty. -/
def ClientCall.LosesMark {type : AttrType} (fuel : ℕ) (header : IndexFileHeader)
    (s : FlatPool (IndexPage (IndexKey type.KeyValue))) : ClientCall type → Prop
  | insertEntry userKey rid =>
    ∃ leaf ∈ leafOf (keyComparator type.compare) fuel header s ⟨userKey, rid⟩,
      SplitsBeforeBrother (keyComparator type.compare) header ⟨userKey, rid⟩ (s.page leaf)
  | deleteEntry userKey rid =>
    ∃ leaf ∈ leafOf (keyComparator type.compare) fuel header s ⟨userKey, rid⟩,
      MergesLeaf (keyComparator type.compare) header s ⟨userKey, rid⟩ leaf
  | _ => False

instance {K : Type} (comparator : K → K → Int) (header : IndexFileHeader)
    (s : FlatPool (IndexPage K)) (key : K) (leaf : Int) :
    Decidable (MergesLeaf comparator header s key leaf) :=
  match h : s.page leaf with
  | .leaf n => decidable_of_iff ((n.lookup comparator key).2 = true ∧
      n.items.length - 1 < minSize header .leaf ∧ n.parent ≠ bpInvalidPageNum ∧
      ∃ neighbor ∈ neighborPage s leaf n,
        n.items.length - 1 + (s.page neighbor).size ≤ header.leafMaxSize) (by simp [MergesLeaf, h])
  | .internal _ => .isFalse (by simp [MergesLeaf, h])
  | .header _ => .isFalse (by simp [MergesLeaf, h])

instance {type : AttrType} (fuel : ℕ) (header : IndexFileHeader)
    (s : FlatPool (IndexPage (IndexKey type.KeyValue))) (call : ClientCall type) :
    Decidable (call.LosesMark fuel header s) :=
  match call with
  | .insertEntry _ _ => inferInstanceAs (Decidable (∃ leaf ∈ _, _))
  | .deleteEntry _ _ => inferInstanceAs (Decidable (∃ leaf ∈ _, _))
  | .getEntry _ => inferInstanceAs (Decidable False)
  | .scan _ _ => inferInstanceAs (Decidable False)
  | .sync => inferInstanceAs (Decidable False)

/-- The values of the call are among these, and its record identifier can be in a key. -/
def ClientCall.Admissible {type : AttrType} (values : List type.KeyValue) : ClientCall type → Prop
  | insertEntry userKey rid => userKey ∈ values ∧ Storable rid
  | deleteEntry userKey rid => userKey ∈ values ∧ RIDInRange rid
  | getEntry userKey => userKey ∈ values
  | scan left right => (∀ l ∈ left, l.1 ∈ values) ∧ ∀ r ∈ right, r.1 ∈ values
  | sync => True

section call

variable {type : AttrType} {values : List type.KeyValue} {header : IndexFileHeader}
  {s : FlatPool (IndexPage (IndexKey type.KeyValue))} {C : SortedSet (IndexKey type.KeyValue)}
  {fuel height : ℕ}

theorem keeps_scan (left right : Option (type.KeyValue × Bool)) :
    Keeps [] header s (type.scan fuel (left.map type.userBound) (right.map type.userBound))
      fun _ L' => L' = [] := by
  rw [scan_eq]
  exact keeps_scanInts type.compare fuel left right

/-- The books of a call that balances its pins. -/
theorem Keeps.answer {α β : Type} {x : TreeM (IndexKey type.KeyValue) α} {f : α → β}
    (h : Keeps [] header s x fun _ L' => L' = []) :
    Keeps [] header s (do return f (← x)) fun _ L' => L' = [] :=
  Keeps.bind h fun _ _ _ _ _ hL => Keeps.pure hL

/-- **One call.** It answers as the reference does and does to the file what the reference does to
the set, and the pins are balanced unless a mark is lost. -/
theorem ClientCall.run_ok (hvalues : type.Comparable values)
    (h : RepresentsSet (ValueKey (· ∈ values)) header s height C)
    (hstored : ∀ e ∈ C.entries, Storable e.1.rid) (call : ClientCall type)
    (hcall : call.Admissible values) (hfuel : height ≤ fuel) (hlength : C.entries.length < fuel)
    (hsafe : ¬ call.LosesMark fuel header s) :
    Keeps [] header s (call.run fuel) (fun _ L' => L' = []) ∧
      ∃ header' s', exec flat (call.run fuel) header s =
          some (((call.reference C).1, header'), s') ∧
        RepresentsSet (ValueKey (· ∈ values)) header' s' (height + 1) (call.reference C).2 ∧
        (call.reference C).2.entries.length ≤ C.entries.length + 1 ∧
        ∀ e ∈ (call.reference C).2.entries, Storable e.1.rid := by
  have ho := valueKey_orders fun _ _ hv hw => hvalues.sign hv hw
  cases call with
  | insertEntry userKey rid =>
    obtain ⟨hvalue, hrid⟩ := hcall
    have hkey : ValueKey (· ∈ values) ⟨userKey, rid⟩ := ⟨hvalue, hrid.1⟩
    obtain ⟨header', s', hexec, h', -⟩ :=
      op_ok ho fuel (.insertEntry ⟨userKey, rid⟩ rid) h hkey hfuel
    refine ⟨(h.keeps_insertEntry ho hfuel hkey rid hsafe).answer, header', s', ?_, h',
      length_reference_le (.insertEntry (IndexKey.mk userKey rid) rid) C,
      storable_reference hstored ?_⟩
    · rw [IndexOp.run] at hexec
      simp [run, hexec, reference]
    · rintro key rid' heq
      cases heq
      exact hrid
  | deleteEntry userKey rid =>
    have hkey : ValueKey (· ∈ values) ⟨userKey, rid⟩ := hcall
    obtain ⟨header', s', hexec, h', -⟩ := op_ok ho fuel (.deleteEntry ⟨userKey, rid⟩) h hkey hfuel
    refine ⟨(h.keeps_deleteEntry ho hfuel hkey hsafe).answer, header', s', ?_, h',
      length_reference_le (.deleteEntry (IndexKey.mk userKey rid)) C, storable_reference hstored ?_⟩
    · rw [IndexOp.run] at hexec
      simp [run, hexec, reference]
    · rintro key rid' heq
      cases heq
  | getEntry userKey =>
    have hexec := getEntry_ok hvalues h hstored hfuel hlength hcall
    refine ⟨Keeps.answer (f := fun r => ClientAnswer.found r.1 r.2) (keeps_getEntry type _),
      header, s, ?_, h.succ, Nat.le_succ _, hstored⟩
    simp only [run, exec_bind, hexec, andThen_some, exec_pure, reference]
    split_ifs <;> rfl
  | scan left right =>
    have hexec := scan_ok hvalues h hstored hfuel hlength hcall.1 hcall.2
    refine ⟨Keeps.answer (f := fun r => ClientAnswer.scanned r.1 r.2.1 r.2.2)
      (keeps_scan left right), header, s, ?_, h.succ, Nat.le_succ _, hstored⟩
    simp only [run, exec_bind, hexec, andThen_some, exec_pure, reference]
    split_ifs <;> rfl
  | sync =>
    exact ⟨keeps_sync.answer, header, s, rfl, h.succ, Nat.le_succ _, hstored⟩

/-- The header page holds the header. -/
theorem RepresentsSet.header_page {K : Type} [LinearOrder K] {InTree : K → Prop}
    {s : FlatPool (IndexPage K)} {C : SortedSet K} (h : RepresentsSet InTree header s height C) :
    s.page firstIndexPage = .header header := by
  rcases h with ⟨hempty, -⟩ | ⟨g, hinv, -⟩
  · exact hempty.store.header_page
  · exact hinv.store.header_page

/-- **A handler that opens the file** gets the header of the one before it. -/
theorem openIndex_ok {K : Type} {s : FlatPool (IndexPage K)} (fresh : IndexFileHeader)
    (hpage : s.page firstIndexPage = .header header) :
    exec flat openIndex fresh s = some ((.success, header), s) := by
  simp [openIndex, hpage]

theorem keeps_openIndex {K : Type} {s : FlatPool (IndexPage K)} :
    Keeps [] header s (openIndex : TreeM K RC) fun _ L' => L' = [] := by
  unfold openIndex
  refine Keeps.getThisPage (Keeps.ok (Keeps.page ?_))
  cases s.page firstIndexPage with
  | header h => exact Keeps.set (Keeps.unpinPage 0 rfl (by decide) (Keeps.pure rfl))
  | leaf n => exact Keeps.fail
  | internal n => exact Keeps.fail

end call

/-! ## Runs -/

/-- What a client does with a file. -/
inductive ClientStep (type : AttrType)
  /-- A call on its handler. -/
  | call (request : ClientCall type)
  /-- `sync()` and `close()` of its handler and `open(file_name)` of another one. The new handler
  has any header so far. -/
  | reopen (kept : Int → Bool) (fresh : IndexFileHeader)

/-- A step on a pool whose pages may be evicted before every call on it. -/
def ClientStep.run {type : AttrType} (schedule : ℕ → List Int) (fuel : ℕ) (header : IndexFileHeader)
    (pool : CachedPool (IndexPage (IndexKey type.KeyValue)) × ℕ) : ClientStep type →
    Option ((ClientAnswer × IndexFileHeader) ×
      CachedPool (IndexPage (IndexKey type.KeyValue)) × ℕ)
  | .call request => exec (evicting schedule) (request.run fuel) header pool
  | .reopen kept fresh => do
    let (_, pool) ← exec (evicting schedule) Index.sync header pool
    exec (evicting schedule) (do return .code (← openIndex)) fresh
      (pool.1.closeAndOpen kept, pool.2)

/-- A sequence of steps. -/
def runSteps {type : AttrType} (schedule : ℕ → List Int) (fuel : ℕ) :
    List (ClientStep type) → IndexFileHeader →
    CachedPool (IndexPage (IndexKey type.KeyValue)) × ℕ →
    Option ((List ClientAnswer × IndexFileHeader) ×
      CachedPool (IndexPage (IndexKey type.KeyValue)) × ℕ)
  | [], header, pool => some (([], header), pool)
  | step :: steps, header, pool => do
    let ((answer, header), pool) ← step.run schedule fuel header pool
    let ((answers, header), pool) ← runSteps schedule fuel steps header pool
    return ((answer :: answers, header), pool)

/-- Make an index and use it. -/
def createAndRunSteps (type : AttrType) (internalMaxSize leafMaxSize : Int)
    (schedule : ℕ → List Int) (fuel : ℕ) (steps : List (ClientStep type)) :
    Option ((List ClientAnswer × IndexFileHeader) ×
      CachedPool (IndexPage (IndexKey type.KeyValue)) × ℕ) := do
  let ((_, header), pool) ← exec (evicting schedule)
    (create type.attrLength internalMaxSize leafMaxSize) default (.created, 0)
  runSteps schedule fuel steps header pool

/-- What a step does to a sorted set, and what it answers: opening the file again does nothing. -/
def ClientStep.reference {type : AttrType} (C : SortedSet (IndexKey type.KeyValue)) :
    ClientStep type → ClientAnswer × SortedSet (IndexKey type.KeyValue)
  | .call request => request.reference C
  | .reopen _ _ => (.code .success, C)

/-- The answers of the reference. -/
def referenceAnswers {type : AttrType} :
    List (ClientStep type) → SortedSet (IndexKey type.KeyValue) → List ClientAnswer
  | [], _ => []
  | step :: steps, C => (step.reference C).1 :: referenceAnswers steps (step.reference C).2

/-- The values of the step are among these. -/
def ClientStep.Admissible {type : AttrType} (values : List type.KeyValue) : ClientStep type → Prop
  | .call request => request.Admissible values
  | .reopen _ _ => True

/-- No call of the run loses a mark. -/
def StepsKeepMarks {type : AttrType} (fuel : ℕ) : List (ClientStep type) → IndexFileHeader →
    FlatPool (IndexPage (IndexKey type.KeyValue)) → Prop
  | [], _, _ => True
  | .call call :: steps, header, s => ¬ call.LosesMark fuel header s ∧
    match exec flat (call.run fuel) header s with
    | some ((_, header'), s') => StepsKeepMarks fuel steps header' s'
    | none => True
  | .reopen _ _ :: steps, header, s => StepsKeepMarks fuel steps header s

instance decidableStepsKeepMarks {type : AttrType} (fuel : ℕ) : (steps : List (ClientStep type)) →
    (header : IndexFileHeader) → (s : FlatPool (IndexPage (IndexKey type.KeyValue))) →
    Decidable (StepsKeepMarks fuel steps header s)
  | [], _, _ => inferInstanceAs (Decidable True)
  | .call call :: steps, header, s =>
    match h : exec flat (call.run fuel) header s with
    | none => decidable_of_iff (¬ call.LosesMark fuel header s) (by simp [StepsKeepMarks, h])
    | some r =>
      have := decidableStepsKeepMarks fuel steps r.1.2 r.2
      decidable_of_iff (¬ call.LosesMark fuel header s ∧ StepsKeepMarks fuel steps r.1.2 r.2)
        (by simp [StepsKeepMarks, h])
  | .reopen _ _ :: steps, header, s => decidableStepsKeepMarks fuel steps header s

section runs

variable {type : AttrType} {values : List type.KeyValue} {header : IndexFileHeader}
  {s : FlatPool (IndexPage (IndexKey type.KeyValue))} {C : SortedSet (IndexKey type.KeyValue)}
  {fuel height : ℕ} {c : CachedPool (IndexPage (IndexKey type.KeyValue))} {schedule : ℕ → List Int}

/-- Nothing is pinned between two calls. -/
theorem eq_quiet {t : Marks} (hagree : Agrees s t c) (ht : t.Holds []) : t = .quiet := by
  obtain ⟨pinned, marked, touched, lost, sound⟩ := t
  obtain ⟨hpinned, htouched, -, hlost, hsound⟩ := ht
  obtain rfl : pinned = [] := List.perm_nil.mp hpinned
  obtain rfl : touched = [] := List.eq_nil_iff_forall_not_mem.mpr fun p hp =>
    List.not_mem_nil (htouched p hp)
  obtain rfl : marked = [] := List.eq_nil_iff_forall_not_mem.mpr fun p hp =>
    List.not_mem_nil (hagree.marked p hp)
  obtain rfl : lost = [] := hlost
  obtain rfl : sound = true := hsound
  rfl

/-- A program that balances its pins answers on the pool as it does without evictions. -/
theorem exec_evicting (schedule : ℕ → List Int) {α : Type} {x : TreeM (IndexKey type.KeyValue) α} {a : α}
    {header' : IndexFileHeader} {s' : FlatPool (IndexPage (IndexKey type.KeyValue))}
    (hkeeps : Keeps [] header s x fun _ L' => L' = [])
    (hflat : exec flat x header s = some ((a, header'), s')) (hagree : Agrees s .quiet c) (k : ℕ) :
    ∃ c' k', exec (evicting schedule) x header (c, k) = some ((a, header'), (c', k')) ∧
      Agrees s' .quiet c' := by
  obtain ⟨t, htracked⟩ := exec_tracked_of_flat .quiet hflat
  obtain ⟨L', hholds, rfl⟩ := hkeeps .quiet Marks.holds_quiet _ _ _ _ htracked
  obtain ⟨c', k', hevict, hagree'⟩ := run_evicting schedule _ k htracked hholds.clean hagree
  obtain rfl := eq_quiet hagree' hholds
  exact ⟨c', k', hevict, hagree'⟩

/-- After `sync` every page is on disk. -/
theorem exec_sync (schedule : ℕ → List Int) (header : IndexFileHeader) (hagree : Agrees s .quiet c) (k : ℕ) :
    ∃ c', exec (evicting schedule) Index.sync header (c, k) =
        some ((.success, header), (c', k + 1)) ∧
      Agrees s .quiet c' ∧ ∀ p, c'.disk p = s.page p := by
  have hevicted := hagree.evictAll (schedule k)
  refine ⟨((schedule k).foldl CachedPool.evict c).flushAllPages, rfl, hevicted.flushAllPages,
    fun p => hevicted.content p⟩

/-- **Closing and opening the file again.** -/
theorem run_reopen (schedule : ℕ → List Int) (fuel : ℕ)
    (h : RepresentsSet (ValueKey (· ∈ values)) header s height C)
    (hagree : Agrees s .quiet c) (k : ℕ) (kept : Int → Bool) (fresh : IndexFileHeader) :
    ∃ c' k', (ClientStep.reopen kept fresh : ClientStep type).run schedule fuel header (c, k) =
        some ((.code .success, header), (c', k')) ∧ Agrees s .quiet c' := by
  obtain ⟨c₁, hsync, hagree₁, hdisk⟩ := exec_sync schedule header hagree k
  have hopen : exec flat (do return .code (← openIndex)) fresh s =
      some ((ClientAnswer.code .success, header), s) := by
    simp [openIndex_ok fresh h.header_page]
  obtain ⟨c', k', hrun, hagree'⟩ := exec_evicting schedule
    (keeps_openIndex.answer (f := ClientAnswer.code)) hopen (hagree₁.closeAndOpen hdisk kept)
    (k + 1)
  refine ⟨c', k', ?_, hagree'⟩
  rw [ClientStep.run, hsync]
  exact hrun

/-- **A run.** By induction on the steps. -/
theorem runSteps_ok (hvalues : type.Comparable values) (steps : List (ClientStep type))
    (h : RepresentsSet (ValueKey (· ∈ values)) header s height C)
    (hstored : ∀ e ∈ C.entries, Storable e.1.rid)
    (hsteps : ∀ step ∈ steps, step.Admissible values) (hfuel : height + steps.length ≤ fuel)
    (hlength : C.entries.length + steps.length < fuel)
    (hsafe : StepsKeepMarks fuel steps header s) (hagree : Agrees s .quiet c) (k : ℕ) :
    ∃ header' c' k', runSteps schedule fuel steps header (c, k) =
      some ((referenceAnswers steps C, header'), (c', k')) := by
  induction steps generalizing header s height C c k with
  | nil => exact ⟨header, c, k, rfl⟩
  | cons step steps ih =>
    rw [List.length_cons] at hfuel hlength
    have hrest : ∀ step ∈ steps, step.Admissible values := fun o ho =>
      hsteps o (List.mem_cons_of_mem _ ho)
    cases step with
    | call call =>
      obtain ⟨hcall, hsafe'⟩ := hsafe
      obtain ⟨hkeeps, header₁, s₁, hexec, h₁, hlength₁, hstored₁⟩ := call.run_ok hvalues h hstored
        (hsteps (.call call) List.mem_cons_self) (by omega) (by omega) hcall
      rw [hexec] at hsafe'
      obtain ⟨c₁, k₁, hrun, hagree₁⟩ := exec_evicting schedule hkeeps hexec hagree k
      obtain ⟨header', c', k', hruns⟩ :=
        ih h₁ hstored₁ hrest (by omega) (by omega) hsafe' hagree₁ k₁
      refine ⟨header', c', k', ?_⟩
      show (ClientStep.run schedule fuel header (c, k) (.call call)).bind _ = _
      rw [ClientStep.run, hrun, Option.bind_some]
      show (runSteps schedule fuel steps header₁ (c₁, k₁)).bind _ = _
      rw [hruns]
      rfl
    | reopen kept fresh =>
      obtain ⟨c₁, k₁, hrun, hagree₁⟩ := run_reopen schedule fuel h hagree k kept fresh
      obtain ⟨header', c', k', hruns⟩ := ih h hstored hrest (by omega) (by omega) hsafe hagree₁ k₁
      refine ⟨header', c', k', ?_⟩
      show (ClientStep.run schedule fuel header (c, k) (.reopen kept fresh)).bind _ = _
      rw [hrun, Option.bind_some]
      show (runSteps schedule fuel steps header (c₁, k₁)).bind _ = _
      rw [hruns]
      rfl

/-- No call of a run on a new index loses a mark. -/
def CreatedStepsKeepMarks (type : AttrType) (internalMaxSize leafMaxSize : Int) (fuel : ℕ)
    (steps : List (ClientStep type)) : Prop :=
  match exec flat (create (K := IndexKey type.KeyValue) type.attrLength internalMaxSize leafMaxSize)
      default .created with
  | some ((_, header), s) => StepsKeepMarks fuel steps header s
  | none => True

instance (type : AttrType) (internalMaxSize leafMaxSize : Int) (fuel : ℕ)
    (steps : List (ClientStep type)) :
    Decidable (CreatedStepsKeepMarks type internalMaxSize leafMaxSize fuel steps) :=
  match h : exec flat (create (K := IndexKey type.KeyValue) type.attrLength internalMaxSize
      leafMaxSize) default .created with
  | none => .isTrue (by simp [CreatedStepsKeepMarks, h])
  | some r => decidable_of_iff (StepsKeepMarks fuel steps r.1.2 r.2)
      (by simp [CreatedStepsKeepMarks, h])

/-- **An index that is opened again is the same sorted set.** A client makes an index on a column
of any type, uses it, and closes and opens the file as often as it likes. The values of the run can
be compared, and no insert splits a leaf before another one and no delete merges two leaves, since
these let changed pages go without marking them. Then all answers are those of one sorted set,
whatever is evicted in between, whatever frames stay behind when the file is closed, and whatever
header a handler has before it opens the file. -/
theorem reopened_index (type : AttrType) (internalMaxSize leafMaxSize : Int)
    (hinternal : 6 ≤ (newFileHeader type.attrLength internalMaxSize leafMaxSize).internalMaxSize)
    (hleaf : 4 ≤ (newFileHeader type.attrLength internalMaxSize leafMaxSize).leafMaxSize)
    (values : List type.KeyValue) (hvalues : type.Comparable values)
    (steps : List (ClientStep type)) (hsteps : ∀ step ∈ steps, step.Admissible values) (fuel : ℕ)
    (hfuel : steps.length < fuel)
    (hsafe : CreatedStepsKeepMarks type internalMaxSize leafMaxSize fuel steps)
    (schedule : ℕ → List Int) :
    ∃ header c k, createAndRunSteps type internalMaxSize leafMaxSize schedule fuel steps =
      some ((referenceAnswers steps .empty, header), (c, k)) := by
  obtain ⟨s₀, hcreate, h₀⟩ := create_ok (ValueKey (· ∈ values)) hinternal hleaf default
  unfold CreatedStepsKeepMarks at hsafe
  rw [hcreate] at hsafe
  obtain ⟨c₀, k₀, hevict, hagree⟩ := exec_evicting schedule
    (keeps_create type.attrLength internalMaxSize leafMaxSize) hcreate BufferPool.agrees_created 0
  obtain ⟨header, c, k, hrun⟩ := runSteps_ok hvalues steps h₀ (by simp [SortedSet.empty]) hsteps
    (by omega) (by simpa [SortedSet.empty] using hfuel) hsafe hagree k₀
  refine ⟨header, c, k, ?_⟩
  rw [createAndRunSteps, hevict]
  exact hrun

/-- The strings `ba` and `b` in a column of two bytes. -/
def twoStrings : List (CharsValue 2) :=
  [⟨[98, 97], by decide, by decide⟩, ⟨[98], by decide, by decide⟩]

/-- A run on a `CHARS` index that is opened three times, with all pages evicted before every
call. -/
theorem reopened_index_run : ∃ header c k,
    createAndRunSteps (.chars 2) 6 4 (fun _ => [1, 2]) 9
      [.call (.insertEntry ⟨[98, 97], by decide, by decide⟩ ⟨1, 0⟩),
        .call (.insertEntry ⟨[98], by decide, by decide⟩ ⟨1, 1⟩),
        .reopen (fun _ => false) default, .call (.getEntry ⟨[98], by decide, by decide⟩),
        .call (.deleteEntry ⟨[98], by decide, by decide⟩ ⟨1, 1⟩),
        .reopen (fun _ => true) ⟨7, 0, 0⟩, .call (.getEntry ⟨[98], by decide, by decide⟩),
        .call (.scan none none)] =
      some (([.code .success, .code .success, .code .success, .found .success [⟨1, 1⟩],
        .code .success, .code .success, .found .success [],
        .scanned .success .recordEof [⟨1, 0⟩]], header), (c, k)) :=
  reopened_index (.chars 2) 6 4 (by decide) (by decide) twoStrings trivial
    [.call (.insertEntry ⟨[98, 97], by decide, by decide⟩ ⟨1, 0⟩),
      .call (.insertEntry ⟨[98], by decide, by decide⟩ ⟨1, 1⟩),
      .reopen (fun _ => false) default, .call (.getEntry ⟨[98], by decide, by decide⟩),
      .call (.deleteEntry ⟨[98], by decide, by decide⟩ ⟨1, 1⟩),
      .reopen (fun _ => true) ⟨7, 0, 0⟩, .call (.getEntry ⟨[98], by decide, by decide⟩),
      .call (.scan none none)]
    (by simp [ClientStep.Admissible, ClientCall.Admissible, twoStrings, Storable, RIDInRange,
      RID.max]) 9 (by decide) (by decide +kernel) fun _ => [1, 2]

end runs

end Miniob.Storage.Index
