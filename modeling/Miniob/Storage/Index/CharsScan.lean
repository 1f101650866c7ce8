import Miniob.Lib.ListLex
import Miniob.Storage.Index.CharsScanner
import Miniob.Storage.Index.Scan

/-!
# Range scans of a `CHARS` index

A scan between two strings of any length. The stored strings are not longer than the column, so a
longer bound cuts them where its beginning of the length of the column does. Two things go wrong
with such bounds:

* `open` compares the beginnings of both bounds. If they are the same, it rejects the range unless
  both ends are included.
* The last byte of a left bound that is cut is incremented in a `char`. From `0xff` it becomes zero,
  and the scan starts at the beginning without it.

`chars_scan_exact_iff`: a scan is exact if and only if the first does not happen and the second
admits no stored string.
-/

namespace Miniob.Storage.Index

open Miniob.Common Miniob.Lib
open Miniob.Storage.BufferPool (FlatPool flat)

variable {attrLength : ℕ} {header : IndexFileHeader}
  {s : FlatPool (IndexPage (IndexKey (CharsValue attrLength)))} {height fuel : ℕ}
  {C : SortedSet (IndexKey (CharsValue attrLength))} {left right : Option (List Byte × Bool)}

/-! ## What a scan is for -/

/-- A string is within the left bound. -/
def AboveLeft (left : Option (List Byte × Bool)) (v : List Byte) : Prop :=
  ∀ l ∈ left, if l.2 then l.1 ≤ v else l.1 < v

/-- A string is within the right bound. -/
def BelowRight (right : Option (List Byte × Bool)) (v : List Byte) : Prop :=
  ∀ r ∈ right, if r.2 then v ≤ r.1 else v < r.1

instance (left : Option (List Byte × Bool)) (v : List Byte) : Decidable (AboveLeft left v) :=
  decidable_of_iff (∀ l ∈ left.toList, if l.2 then l.1 ≤ v else l.1 < v) (by simp [AboveLeft])

instance (right : Option (List Byte × Bool)) (v : List Byte) : Decidable (BelowRight right v) :=
  decidable_of_iff (∀ r ∈ right.toList, if r.2 then v ≤ r.1 else v < r.1) (by simp [BelowRight])

/-- The scan succeeds and gives the record identifiers of the entries within the bounds, in
order. -/
def ScanExact (attrLength fuel : ℕ) (left right : Option (List Byte × Bool))
    (header : IndexFileHeader) (s : FlatPool (IndexPage (IndexKey (CharsValue attrLength))))
    (C : SortedSet (IndexKey (CharsValue attrLength))) : Prop :=
  ∃ scanner₁ scanner₂,
    exec flat (openChars attrLength fuel left right .closed) header s =
      some (((.success, scanner₁), header), s) ∧
    exec flat (nextEntries fuel scanner₁) header s = some (((.recordEof,
      (C.entries.filter fun e => AboveLeft left e.1.attr.bytes ∧
        BelowRight right e.1.attr.bytes).map Prod.snd, scanner₂), header), s)

/-- The bound is cut after a byte that overflows when it is incremented. -/
def CutAfterMaxByte (attrLength : ℕ) (bound : List Byte) : Prop :=
  attrLength < bound.length ∧ bound[attrLength - 1]? = some 255

instance (attrLength : ℕ) (bound : List Byte) : Decidable (CutAfterMaxByte attrLength bound) :=
  inferInstanceAs (Decidable (_ ∧ _))

/-- Two bounds with the same beginning are both included, and no string within the right bound is
between the beginning of a left bound without its last byte `0xff` and the bound. -/
structure Scannable (attrLength : ℕ) (left right : Option (List Byte × Bool))
    (C : SortedSet (IndexKey (CharsValue attrLength))) : Prop where
  accepted : ∀ l ∈ left, ∀ r ∈ right, l.1.take attrLength = r.1.take attrLength →
    l.2 = true ∧ r.2 = true
  no_carry : ∀ l ∈ left, CutAfterMaxByte attrLength l.1 → ∀ e ∈ C.entries,
    BelowRight right e.1.attr.bytes → l.1.take (attrLength - 1) ≤ e.1.attr.bytes →
    l.1 < e.1.attr.bytes

/-! ## Keys -/

theorem RIDInRange.fits {a b : RID} (ha : RIDInRange a) (hb : RIDInRange b) : RidFits a b := by
  simp only [RIDInRange] at ha hb
  simp only [RidFits, FitsInt]
  omega

/-- The comparison of keys is that of their order. -/
theorem compareChars_orders : OrdersKeys (keyComparator (@compareChars attrLength))
    fun k => RIDInRange k.rid := by
  have hsign : ∀ a b : IndexKey (CharsValue attrLength), RIDInRange a.rid → RIDInRange b.rid →
      SignOfOrder (keyComparator compareChars a b) a b := by
    intro a b ha hb
    have h := keyComparator_sign (f := id) (compareChars_sign a.attr b.attr) fun _ => ha.fits hb
    refine ⟨h.neg, h.zero.trans ?_, h.pos⟩
    obtain ⟨v, p, i⟩ := a
    obtain ⟨w, q, j⟩ := b
    simp [ridPlace]
  exact ⟨fun a b ha hb => (hsign a b ha hb).neg.mpr, fun a ha => (hsign a a ha ha).zero.mpr rfl,
    fun a b ha hb => (hsign a b ha hb).pos.mpr⟩

/-! ## Bounds as values -/

theorem stringOf_of_no_zero {l : List Byte} (hl : 0 ∉ l) : stringOf l = l := by
  simpa using stringOf_append_zeros hl 0

theorem stringOf_take {l : List Byte} (hl : 0 ∉ l) (n : ℕ) : stringOf (l.take n) = l.take n :=
  stringOf_of_no_zero fun h => hl (List.mem_of_mem_take h)

/-- A bound that fits in the column is not changed. -/
theorem fixedBound_of_le {bound : List Byte × Bool} (hbound : 0 ∉ bound.1)
    (hle : bound.1.length ≤ attrLength) (wantGreater : Bool) :
    (fixedBound attrLength wantGreater bound).1.bytes = bound.1 ∧
      (fixedBound attrLength wantGreater bound).2 = bound.2 := by
  simp only [fixedBound, fixUserKey, if_pos hle, CharsValue.ofData, List.take_length,
    Bool.or_false, and_true]
  exact stringOf_append_zeros hbound _

/-- A bound that is longer is cut, and included. -/
theorem fixedBound_of_gt {bound : List Byte × Bool} (hbound : 0 ∉ bound.1)
    (hgt : attrLength < bound.1.length) (wantGreater : Bool) :
    (fixedBound attrLength wantGreater bound).1.bytes = stringOf (if wantGreater then
        (bound.1.take attrLength).modify (attrLength - 1) (· + 1)
      else bound.1.take attrLength) ∧
      (fixedBound attrLength wantGreater bound).2 = true := by
  have hnext : bound.1.getD attrLength 0 ≠ 0 := by
    rw [List.getD_eq_getElem?_getD, List.getElem?_eq_getElem hgt, Option.getD_some]
    exact fun h => hbound (h ▸ List.getElem_mem hgt)
  simp only [fixedBound, fixUserKey, if_neg hgt.not_ge, if_neg hnext, CharsValue.ofData,
    Bool.or_true, and_true]

/-- The right bound admits the same values. -/
theorem le_fixedBound_iff {bound : List Byte × Bool} (hbound : 0 ∉ bound.1)
    (v : CharsValue attrLength) :
    (if (fixedBound attrLength false bound).2 then v ≤ (fixedBound attrLength false bound).1
      else v < (fixedBound attrLength false bound).1) ↔
      if bound.2 then v.bytes ≤ bound.1 else v.bytes < bound.1 := by
  rw [CharsValue.le_iff, CharsValue.lt_iff]
  rcases le_or_gt bound.1.length attrLength with hle | hgt
  · obtain ⟨hbytes, hinclusive⟩ := fixedBound_of_le hbound hle false
    rw [hbytes, hinclusive]
  · obtain ⟨hbytes, hinclusive⟩ := fixedBound_of_gt hbound hgt false
    rw [hbytes, hinclusive, if_pos rfl, if_neg (by simp), stringOf_take hbound,
      le_iff_le_take v.length_le hgt, lt_iff_le_take v.length_le hgt, ite_self]

/-- The last byte of the beginning of a word. -/
theorem exists_take_eq {l : List Byte} {n : ℕ} (hn : 1 ≤ n) (hl : n < l.length) :
    ∃ c, l[n - 1]? = some c ∧ l.take n = l.take (n - 1) ++ [c] ∧
      (l.take n).modify (n - 1) (· + 1) = l.take (n - 1) ++ [c + 1] := by
  obtain ⟨m, rfl⟩ : ∃ m, n = m + 1 := ⟨n - 1, by omega⟩
  obtain ⟨c, hc⟩ : ∃ c, l[m]? = some c := ⟨_, List.getElem?_eq_getElem (by omega)⟩
  have htake : l.take (m + 1) = l.take m ++ [c] := by
    rw [List.take_add_one, hc]
    rfl
  have hlength : (l.take m).length = m := by
    rw [List.length_take]
    omega
  refine ⟨c, hc, htake, ?_⟩
  rw [Nat.add_sub_cancel, htake, List.modify_eq_take_cons_drop (by simp [hlength])]
  simp [hlength]

/-- The left bound admits the same values, unless it is cut after the byte `0xff`: then it admits
those from the beginning without this byte on. -/
theorem fixedBound_le_iff (hlength : 1 ≤ attrLength) {bound : List Byte × Bool}
    (hbound : 0 ∉ bound.1) (v : CharsValue attrLength) :
    (if (fixedBound attrLength true bound).2 then (fixedBound attrLength true bound).1 ≤ v
      else (fixedBound attrLength true bound).1 < v) ↔
      if CutAfterMaxByte attrLength bound.1 then bound.1.take (attrLength - 1) ≤ v.bytes
      else if bound.2 then bound.1 ≤ v.bytes else bound.1 < v.bytes := by
  rw [CharsValue.le_iff, CharsValue.lt_iff]
  rcases le_or_gt bound.1.length attrLength with hle | hgt
  · obtain ⟨hbytes, hinclusive⟩ := fixedBound_of_le hbound hle true
    rw [hbytes, hinclusive, if_neg fun h : CutAfterMaxByte attrLength bound.1 => h.1.not_ge hle]
  · obtain ⟨hbytes, hinclusive⟩ := fixedBound_of_gt hbound hgt true
    obtain ⟨c, hget, htake, hmodify⟩ := exists_take_eq hlength hgt
    have hzero : 0 ∉ bound.1.take (attrLength - 1) := fun h => hbound (List.mem_of_mem_take h)
    rw [hbytes, hinclusive, if_pos rfl, if_pos rfl, hmodify]
    by_cases hc : c = 255
    · -- the byte becomes the end of the string
      have hcut : CutAfterMaxByte attrLength bound.1 := ⟨hgt, hc ▸ hget⟩
      have hcarry : c + 1 = 0 := by
        rw [hc]
        rfl
      have hstring : stringOf (bound.1.take (attrLength - 1) ++ [0]) = _ :=
        stringOf_append_zeros hzero 1
      rw [if_pos hcut, hcarry, hstring]
    · have hcut : ¬ CutAfterMaxByte attrLength bound.1 := by
        rintro ⟨-, heq⟩
        exact hc (Option.some.inj (hget.symm.trans heq))
      have hlt : c.val < 255 := by
        have hne : c.val ≠ 255 := fun h => hc (Fin.ext h)
        have := c.isLt
        omega
      have hval : (c + 1).val = c.val + 1 := Fin.val_add_one_of_lt' (by omega)
      have hnext : ∀ d : Byte, c + 1 ≤ d ↔ c < d := by
        intro d
        rw [Fin.le_def, Fin.lt_def, hval]
        omega
      have hstring : stringOf (bound.1.take (attrLength - 1) ++ [c + 1]) =
          bound.1.take (attrLength - 1) ++ [c + 1] := by
        refine stringOf_of_no_zero fun hmem => ?_
        rcases List.mem_append.mp hmem with hmem | hmem
        · exact hzero hmem
        · have := congrArg Fin.val (List.mem_singleton.mp hmem)
          rw [hval] at this
          simp at this
      have hshort : v.bytes.length ≤ (bound.1.take (attrLength - 1)).length + 1 := by
        have := v.length_le
        rw [List.length_take]
        omega
      rw [if_neg hcut, hstring, append_singleton_le_iff hnext hshort, ← htake, ← not_le,
        ← le_iff_le_take v.length_le hgt, not_le]
      have hne : bound.1 ≠ v.bytes := by
        intro heq
        have := v.length_le
        rw [← heq] at this
        omega
      rw [le_iff_lt_or_eq, or_iff_left hne, ite_self]

/-! ## Open -/

/-- `open` accepts bounds in order if and only if their beginnings differ or both are included. -/
theorem validRange_strncmp_iff (hl : ∀ l ∈ left, 0 ∉ l.1) (hr : ∀ r ∈ right, 0 ∉ r.1)
    (hlr : ∀ l ∈ left, ∀ r ∈ right, l.1 < r.1) :
    validRange (strncmp attrLength) left right = true ↔ ∀ l ∈ left, ∀ r ∈ right,
      l.1.take attrLength = r.1.take attrLength → l.2 = true ∧ r.2 = true := by
  rcases left with _ | ⟨l, li⟩
  · simp [validRange]
  · rcases right with _ | ⟨r, ri⟩
    · simp [validRange]
    · have hsign := strncmp_sign attrLength l r
      rw [stringOf_take (hl _ rfl), stringOf_take (hr _ rfl)] at hsign
      have hle : ¬ 0 < strncmp attrLength l r := by
        rw [hsign.pos, not_lt]
        exact take_le_take (hlr _ rfl _ rfl).le attrLength
      simp only [validRange, Option.mem_def, Option.some.injEq, forall_eq', ← hsign.zero]
      cases li <;> cases ri <;> simp [hle]

/-- Where a right bound is not below a left one, no value is excluded by both. -/
theorem belowRight_of_not_aboveLeft (hlr : ∀ l ∈ left, ∀ r ∈ right, l.1 < r.1) {v : List Byte}
    (h : ¬ AboveLeft left v) : BelowRight right v := by
  intro r hr
  unfold AboveLeft at h
  push Not at h
  obtain ⟨l, hl, hv⟩ := h
  have hle : v ≤ l.1 := by
    split at hv
    · exact (not_le.mp hv).le
    · exact not_lt.mp hv
  have hlt := hle.trans_lt (hlr l hl r hr)
  split
  · exact hlt.le
  · exact hlt

/-- A left bound that is longer than a string within it is below it. -/
theorem AboveLeft.lt_of_gt {v : List Byte} (h : AboveLeft left v) {l : List Byte × Bool}
    (hl : l ∈ left) (hlength : v.length < l.1.length) : l.1 < v := by
  have hv := h l hl
  split at hv
  · refine lt_of_le_of_ne hv fun heq => ?_
    rw [heq] at hlength
    exact lt_irrefl _ hlength
  · exact hv

/-- What the left key of the scan admits. -/
def AboveFixedLeft (attrLength : ℕ) (left : Option (List Byte × Bool)) (v : List Byte) : Prop :=
  ∀ l ∈ left, if CutAfterMaxByte attrLength l.1 then l.1.take (attrLength - 1) ≤ v
    else if l.2 then l.1 ≤ v else l.1 < v

instance (attrLength : ℕ) (left : Option (List Byte × Bool)) (v : List Byte) :
    Decidable (AboveFixedLeft attrLength left v) :=
  decidable_of_iff (∀ l ∈ left.toList, if CutAfterMaxByte attrLength l.1 then
    l.1.take (attrLength - 1) ≤ v else if l.2 then l.1 ≤ v else l.1 < v) (by simp [AboveFixedLeft])

/-- It admits all that the bound admits. -/
theorem AboveLeft.fixed {v : List Byte} (h : AboveLeft left v) :
    AboveFixedLeft attrLength left v := by
  intro l hl
  have hle : l.1 ≤ v := by
    have := h l hl
    split at this
    · exact this
    · exact this.le
  split
  · exact (take_le l.1 _).trans hle
  · exact h l hl

/-- The keys of the scan admit these values. -/
theorem scan_keys_iff (hlength : 1 ≤ attrLength) (hl : ∀ l ∈ left, 0 ∉ l.1)
    (hr : ∀ r ∈ right, 0 ∉ r.1) {e : IndexKey (CharsValue attrLength)} (hrid : RIDInRange e.rid)
    (hmax : e.rid ≠ RID.max) :
    (lowerPoint (left.map fun bound => leftKey (fixedBound attrLength true bound)) ≤ place e ↔
      AboveFixedLeft attrLength left e.attr.bytes) ∧
    (place e < upperPoint (right.map fun bound => rightKey (fixedBound attrLength false bound)) ↔
      BelowRight right e.attr.bytes) := by
  constructor
  · have h := lowerPoint_le_iff hrid hmax (left.map (fixedBound attrLength true))
    rw [Option.map_map] at h
    refine h.trans ?_
    rcases left with _ | l
    · simp [AboveFixedLeft]
    · simpa [AboveFixedLeft] using fixedBound_le_iff hlength (hl _ rfl) e.attr
  · have h := lt_upperPoint_iff hrid hmax (right.map (fixedBound attrLength false))
    rw [Option.map_map] at h
    refine h.trans ?_
    rcases right with _ | r
    · simp [BelowRight]
    · simpa [BelowRight] using le_fixedBound_iff (hr _ rfl) e.attr

/-- What the scan does. -/
theorem openChars_ok (hlength : 1 ≤ attrLength)
    (h : HoldsTree (fun k => RIDInRange k.rid) header s height C)
    (hmax : ∀ e ∈ C.entries, e.1.rid ≠ RID.max) (hl : ∀ l ∈ left, 0 ∉ l.1)
    (hr : ∀ r ∈ right, 0 ∉ r.1) (hlr : ∀ l ∈ left, ∀ r ∈ right, l.1 < r.1)
    (hvalid : validRange (strncmp attrLength) left right = true) (hfuel : height ≤ fuel)
    (hentries : C.entries.length < fuel) :
    ∃ scanner₁ scanner₂, exec flat (openChars attrLength fuel left right .closed) header s =
        some (((.success, scanner₁), header), s) ∧
      exec flat (nextEntries fuel scanner₁) header s = some (((.recordEof,
        (C.entries.filter fun e => lowerPoint (left.map fun bound =>
            leftKey (fixedBound attrLength true bound)) ≤ place e.1 ∧
          place e.1 < upperPoint (right.map fun bound =>
            rightKey (fixedBound attrLength false bound))).map Prod.snd, scanner₂), header), s) := by
  obtain ⟨g, hinv, hC, hlt⟩ := h
  have hrid : ∀ e ∈ C.entries, RIDInRange e.1.rid := by
    intro e he
    obtain ⟨p, hp, hep⟩ := (hC e).mp he
    exact (hinv.tree.entry p hp e hep).1
  have hkeys : ∀ bound : CharsValue attrLength × Bool,
      RIDInRange (leftKey bound).rid ∧ RIDInRange (rightKey bound).rid := by
    rintro ⟨v, inclusive⟩
    cases inclusive <;> simp [leftKey, rightKey, RIDInRange, RID.min, RID.max]
  have hleft : ∀ k ∈ left.map fun bound => leftKey (fixedBound attrLength true bound),
      RIDInRange k.rid := by
    rintro k hk
    obtain ⟨bound, -, rfl⟩ := Option.mem_map.mp hk
    exact (hkeys _).1
  have hright : ∀ k ∈ right.map fun bound => rightKey (fixedBound attrLength false bound),
      RIDInRange k.rid := by
    rintro k hk
    obtain ⟨bound, -, rfl⟩ := Option.mem_map.mp hk
    exact (hkeys _).2
  -- an entry below the left key is below the right key
  have hmono : C.cut (lowerPoint (left.map fun bound =>
        leftKey (fixedBound attrLength true bound))) ≤
      C.cut (upperPoint (right.map fun bound => rightKey (fixedBound attrLength false bound))) := by
    apply C.cut_le_cut
    intro e he hbelow
    obtain ⟨hlow, hhigh⟩ := scan_keys_iff hlength hl hr (hrid e he) (hmax e he)
    rw [← not_le, hlow] at hbelow
    exact hhigh.mpr (belowRight_of_not_aboveLeft hlr fun habove => hbelow habove.fixed)
  have hend : ({ BplusTreeScanner.closed with inited := true } : BplusTreeScanner).endIndex = -1 :=
    rfl
  obtain ⟨scanner₁, scanner₂, hopen, hscan⟩ := scanKeys_ok compareChars_orders hinv hC
    (hlt.trans_le hfuel) hentries hleft hright hmono hend
  refine ⟨scanner₁, scanner₂, ?_, hscan⟩
  simp [openChars, BplusTreeScanner.closed, hvalid] at hopen ⊢
  exact hopen

/-- A filter that admits more and gives a list of the same length admits the same. -/
theorem filter_of_length_le {α : Type} {p q : α → Bool} {l : List α}
    (hqp : ∀ a ∈ l, q a = true → p a = true)
    (hlength : (l.filter p).length ≤ (l.filter q).length) : ∀ a ∈ l, p a = true → q a = true := by
  have hfilter : (l.filter p).filter q = l.filter q := by
    rw [List.filter_filter]
    refine List.filter_congr fun a ha => ?_
    cases hq : q a with
    | false => rfl
    | true => rw [hqp a ha hq, Bool.and_self]
  rw [← hfilter] at hlength
  have hall := List.length_filter_eq_length_iff.mp
    (le_antisymm (List.length_filter_le _ _) hlength)
  exact fun a ha hp => hall a (List.mem_filter.mpr ⟨ha, hp⟩)

/-- A scan between two bounds in order is exact if and only if `open` accepts them and the increment
of the last byte of a left bound that is cut admits no entry. -/
theorem chars_scan_exact_iff (hlength : 1 ≤ attrLength)
    (h : HoldsTree (fun k => RIDInRange k.rid) header s height C)
    (hmax : ∀ e ∈ C.entries, e.1.rid ≠ RID.max) (hl : ∀ l ∈ left, 0 ∉ l.1)
    (hr : ∀ r ∈ right, 0 ∉ r.1) (hlr : ∀ l ∈ left, ∀ r ∈ right, l.1 < r.1)
    (hfuel : height ≤ fuel) (hentries : C.entries.length < fuel) :
    ScanExact attrLength fuel left right header s C ↔ Scannable attrLength left right C := by
  have hrid : ∀ e ∈ C.entries, RIDInRange e.1.rid := by
    obtain ⟨g, hinv, hC, -⟩ := h
    intro e he
    obtain ⟨p, hp, hep⟩ := (hC e).mp he
    exact (hinv.tree.entry p hp e hep).1
  -- the scan reads what its keys admit
  have hfilter : (C.entries.filter fun e => lowerPoint (left.map fun bound =>
        leftKey (fixedBound attrLength true bound)) ≤ place e.1 ∧
      place e.1 < upperPoint (right.map fun bound =>
        rightKey (fixedBound attrLength false bound))) =
      C.entries.filter fun e => AboveFixedLeft attrLength left e.1.attr.bytes ∧
        BelowRight right e.1.attr.bytes := by
    refine List.filter_congr fun e he => decide_eq_decide.mpr ?_
    obtain ⟨hlow, hhigh⟩ := scan_keys_iff hlength hl hr (hrid e he) (hmax e he)
    exact and_congr hlow hhigh
  by_cases hvalid : validRange (strncmp attrLength) left right = true
  · obtain ⟨scanner₁, scanner₂, hopen, hscan⟩ :=
      openChars_ok hlength h hmax hl hr hlr hvalid hfuel hentries
    rw [hfilter] at hscan
    have haccept := (validRange_strncmp_iff hl hr hlr).mp hvalid
    constructor
    · rintro ⟨scanner₁', scanner₂', hopen', hscan'⟩
      obtain rfl : scanner₁ = scanner₁' := by
        rw [hopen] at hopen'
        simpa using hopen'
      rw [hscan] at hscan'
      have hlists := congrArg (fun result => result.map fun answer => answer.1.1.2.1) hscan'
      have hlengths := congrArg List.length (Option.some.inj hlists)
      simp only [List.length_map] at hlengths
      have hall := filter_of_length_le (fun e _ he => by
        simp only [decide_eq_true_eq] at he ⊢
        exact ⟨he.1.fixed, he.2⟩) hlengths.le
      refine ⟨haccept, fun l hleft hcut e he hbelow hlow => ?_⟩
      have hfixed : AboveFixedLeft attrLength left e.1.attr.bytes := by
        intro l' hleft'
        obtain rfl : l = l' := Option.some.inj (hleft.symm.trans hleft')
        rwa [if_pos hcut]
      have habove := of_decide_eq_true (hall e he (decide_eq_true ⟨hfixed, hbelow⟩))
      exact habove.1.lt_of_gt hleft (e.1.attr.length_le.trans_lt hcut.1)
    · intro hscannable
      refine ⟨scanner₁, scanner₂, hopen, ?_⟩
      have hsame : (C.entries.filter fun e => AboveFixedLeft attrLength left e.1.attr.bytes ∧
            BelowRight right e.1.attr.bytes) =
          C.entries.filter fun e => AboveLeft left e.1.attr.bytes ∧
            BelowRight right e.1.attr.bytes := by
        refine List.filter_congr fun e he => decide_eq_decide.mpr ?_
        refine and_congr_left fun hbelow => ⟨fun hfixed l hleft => ?_, AboveLeft.fixed⟩
        have hl := hfixed l hleft
        split at hl
        next hcut =>
          have hlt := hscannable.no_carry l hleft hcut e he hbelow hl
          split
          · exact hlt.le
          · exact hlt
        next => exact hl
      rw [← hsame]
      exact hscan
  · refine iff_of_false ?_ fun hscannable => hvalid ?_
    · rintro ⟨scanner₁, scanner₂, hopen, -⟩
      simp [openChars, BplusTreeScanner.closed, hvalid] at hopen
    · exact (validRange_strncmp_iff hl hr hlr).mpr hscannable.accepted

/-! ## Trees of short strings -/

/-- An index on a column of two bytes, after some operations. -/
theorem exists_holdsTree (ops : List (IndexOp (IndexKey (CharsValue 2))))
    (hrids : ∀ op ∈ ops, RIDInRange op.key.rid) (hne : (reference ops .empty).2.entries ≠ []) :
    ∃ header s, HoldsTree (fun k => RIDInRange k.rid) header s ops.length
      (reference ops .empty).2 := by
  obtain ⟨s₀, -, h₀⟩ := @create_ok _ _ (fun k : IndexKey (CharsValue 2) => RIDInRange k.rid) 2 6 4
    (by decide) (by decide) default
  obtain ⟨header, s, -, hrep, -⟩ := runOps_ok compareChars_orders ops h₀ hrids ops.length
    (by rw [Nat.zero_add])
  rw [Nat.zero_add] at hrep
  exact ⟨header, s, hrep.holdsTree hne⟩

/-- The string `ab`. -/
def oneString : IndexOp (IndexKey (CharsValue 2)) :=
  .insertEntry ⟨⟨[97, 98], by decide, by decide⟩, ⟨1, 0⟩⟩ ⟨1, 0⟩

/-- The strings `ab`, `c`, `ac`, `a` and `cd`, on two leaves. -/
def fiveStrings : List (IndexOp (IndexKey (CharsValue 2))) :=
  [oneString, .insertEntry ⟨⟨[99], by decide, by decide⟩, ⟨1, 1⟩⟩ ⟨1, 1⟩,
    .insertEntry ⟨⟨[97, 99], by decide, by decide⟩, ⟨1, 2⟩⟩ ⟨1, 2⟩,
    .insertEntry ⟨⟨[97], by decide, by decide⟩, ⟨1, 3⟩⟩ ⟨1, 3⟩,
    .insertEntry ⟨⟨[99, 100], by decide, by decide⟩, ⟨1, 4⟩⟩ ⟨1, 4⟩]

/-- A scan from `abc` to `cde`, two bounds that do not fit in the column. It gives `ac`, `c` and
`cd`. -/
theorem chars_scan_exact_run : ∃ header s scanner₁ scanner₂,
    exec flat (openChars 2 6 (some ([97, 98, 99], true)) (some ([99, 100, 101], false)) .closed)
        header s = some (((.success, scanner₁), header), s) ∧
      exec flat (nextEntries 6 scanner₁) header s =
        some (((.recordEof, [⟨1, 2⟩, ⟨1, 1⟩, ⟨1, 4⟩], scanner₂), header), s) := by
  obtain ⟨header, s, h⟩ := exists_holdsTree fiveStrings (by decide) (by decide)
  have hexact : ScanExact 2 6 (some ([97, 98, 99], true)) (some ([99, 100, 101], false)) header s
      (reference fiveStrings .empty).2 :=
    (chars_scan_exact_iff (by decide) h (by decide) (by decide) (by decide) (by decide)
      (by decide) (by decide)).mpr ⟨by decide, by decide⟩
  obtain ⟨scanner₁, scanner₂, hopen, hscan⟩ := hexact
  exact ⟨header, s, scanner₁, scanner₂, hopen, hscan⟩

/-- A scan from the string on, up to a longer string that begins with it: `open` rejects it. -/
theorem chars_scan_rejected : ∃ header s,
    HoldsTree (fun k => RIDInRange k.rid) header s 1 (reference [oneString] .empty).2 ∧
      ¬ ScanExact 2 2 (some ([97, 98], true)) (some ([97, 98, 99], false)) header s
        (reference [oneString] .empty).2 := by
  obtain ⟨header, s, h⟩ := exists_holdsTree [oneString] (by decide) (by decide)
  have hinvalid : validRange (strncmp 2) (some ([97, 98], true)) (some ([97, 98, 99], false)) =
      false := by decide
  refine ⟨header, s, h, ?_⟩
  rintro ⟨scanner₁, scanner₂, hopen, -⟩
  simp [openChars, BplusTreeScanner.closed, hinvalid] at hopen

end Miniob.Storage.Index
