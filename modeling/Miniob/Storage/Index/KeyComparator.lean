import Mathlib.Data.List.TakeWhile
import Mathlib.Data.Prod.Lex
import Mathlib.Data.Vector.Basic
import Miniob.Common.Comparator
import Miniob.Storage.Index.Node

/-!
# The order of keys

The searches of the B+ tree rely on the comparison of two keys as a total order: by the value of the
column, then by the page and the slot of the record. It is one as long as no difference of two
integers overflows. For `FLOATS` it is none if a value lies between two others that are further
apart than `EPSILON` but less than `EPSILON` away from it, and the record identifiers go the other
way.

* `AttrType`, `attrComparator`: the types of columns that can have an index.
* `TotalOn`: the comparison is a total order on a set of keys.
* `Orderable`: the condition on the keys, type by type.
* `total_on_iff`: the one holds if and only if the other does.

The value of a `CHARS` column is the string before the first zero. The values of a `FLOATS` column
are taken as exact rationals, whose differences are not rounded.
-/

namespace Miniob.Storage.Index

open Miniob.Common

/-! ## Columns -/

/-- The types that an index supports. Source: `parse_defs.h`, `enum AttrType` -/
inductive AttrType
  | ints
  | floats
  | chars (attrLength : ℕ)
  deriving DecidableEq

/-- The values of a column. -/
abbrev AttrType.Value : AttrType → Type
  | ints => Int
  | floats => ℚ
  | chars attrLength => List.Vector Byte attrLength

/-- Source: `bplus_tree.h`, `AttrComparator::operator()` -/
def attrComparator : (type : AttrType) → type.Value → type.Value → Int
  | .ints, v₁, v₂ => compareInt v₁ v₂
  | .floats, v₁, v₂ => compareExact v₁ v₂
  | .chars _, v₁, v₂ => compareString v₁.toList v₂.toList

/-- The string in a `CHARS` column. -/
def stringOf (s : List Byte) : List Byte := s.takeWhile fun c => c ≠ 0

/-- Two values are equal. -/
def AttrType.Same : (type : AttrType) → type.Value → type.Value → Prop
  | .ints, v₁, v₂ => v₁ = v₂
  | .floats, v₁, v₂ => v₁ = v₂
  | .chars _, v₁, v₂ => stringOf v₁.toList = stringOf v₂.toList

/-- An `int` can have this value. -/
def FitsInt (x : Int) : Prop := -2147483648 ≤ x ∧ x ≤ 2147483647

/-- The differences that `RID::compare` computes do not overflow. -/
def RidFits (a b : RID) : Prop :=
  FitsInt (a.pageNum - b.pageNum) ∧ (a.pageNum = b.pageNum → FitsInt (a.slotNum - b.slotNum))

/-- The difference that is computed of two values does not overflow. -/
def AttrType.Fits : (type : AttrType) → type.Value → type.Value → Prop
  | .ints, v₁, v₂ => FitsInt (v₁ - v₂)
  | .floats, _, _ => True
  | .chars _, _, _ => True

/-! ## A total order -/

/-- The comparison of two keys is a total order on a set of keys, and no difference overflows. -/
structure TotalOn (type : AttrType) (keys : Set (IndexKey type.Value)) : Prop where
  antisymm : ∀ a ∈ keys, ∀ b ∈ keys, (keyComparator (attrComparator type) a b).sign =
    -(keyComparator (attrComparator type) b a).sign
  trans : ∀ a ∈ keys, ∀ b ∈ keys, ∀ c ∈ keys, keyComparator (attrComparator type) a b ≤ 0 →
    keyComparator (attrComparator type) b c ≤ 0 → keyComparator (attrComparator type) a c ≤ 0
  zero : ∀ a ∈ keys, ∀ b ∈ keys, keyComparator (attrComparator type) a b = 0 →
    type.Same a.attr b.attr ∧ a.rid = b.rid
  fits : ∀ a ∈ keys, ∀ b ∈ keys, type.Fits a.attr b.attr ∧
    (attrComparator type a.attr b.attr = 0 → RidFits a.rid b.rid)

/-- The page and the slot of a record, in the order in which they are compared. -/
def ridPlace (rid : RID) : ℤ ×ₗ ℤ := toLex (rid.pageNum, rid.slotNum)

theorem ridPlace_inj {a b : RID} : ridPlace a = ridPlace b ↔ a = b := by
  cases a
  cases b
  simp [ridPlace]

/-- Three values, each of them closer to the next one than the first to the third, with record
identifiers that go the other way. -/
def Crossing (a b c : IndexKey ℚ) : Prop :=
  (a.attr < b.attr ∧ b.attr < c.attr) ∧ (b.attr - a.attr ≤ exactEps ∧ c.attr - b.attr ≤ exactEps) ∧
    exactEps < c.attr - a.attr ∧ ridPlace c.rid < ridPlace b.rid ∧ ridPlace b.rid < ridPlace a.rid

/-- What the keys of a column must be like to be in a total order. -/
def Orderable : (type : AttrType) → Set (IndexKey type.Value) → Prop
  | .ints, keys => ∀ a ∈ keys, ∀ b ∈ keys, FitsInt (a.attr - b.attr) ∧
      (a.attr = b.attr → RidFits a.rid b.rid)
  | .floats, keys => (∀ a ∈ keys, ∀ b ∈ keys,
        a.attr - b.attr ≤ exactEps ∧ b.attr - a.attr ≤ exactEps →
        RidFits a.rid b.rid ∧ (a.rid = b.rid → a.attr = b.attr)) ∧
      ∀ a ∈ keys, ∀ b ∈ keys, ∀ c ∈ keys, ¬ Crossing a b c
  | .chars _, keys => ∀ a ∈ keys, ∀ b ∈ keys,
      stringOf a.attr.toList = stringOf b.attr.toList → RidFits a.rid b.rid

/-! ## Comparing by an order -/

theorem RidFits.sign {a b : RID} (h : RidFits a b) :
    SignOfOrder (RID.compare a b) (ridPlace a) (ridPlace b) := by
  obtain ⟨⟨hlow, hhigh⟩, hslot⟩ := h
  unfold RID.compare
  rw [wrap32_eq hlow hhigh]
  by_cases hpage : a.pageNum = b.pageNum
  · obtain ⟨hlow, hhigh⟩ := hslot hpage
    have hslots : wrap32 (a.slotNum - b.slotNum) = a.slotNum - b.slotNum := wrap32_eq hlow hhigh
    simp only [hpage, sub_self, ne_eq, not_true_eq_false, if_false, hslots]
    refine ⟨?_, ?_, ?_⟩
    · rw [ridPlace, ridPlace, Prod.Lex.toLex_lt_toLex]
      simp [hpage]
    · rw [ridPlace_inj]
      cases a
      cases b
      simp_all [sub_eq_zero]
    · rw [ridPlace, ridPlace, Prod.Lex.toLex_lt_toLex]
      simp [hpage]
  · have hne : a.pageNum - b.pageNum ≠ 0 := by omega
    rw [if_pos hne]
    refine ⟨?_, ?_, ?_⟩
    · rw [ridPlace, ridPlace, Prod.Lex.toLex_lt_toLex]
      simp [hpage]
    · refine iff_of_false hne fun heq => hpage ?_
      rw [ridPlace_inj.mp heq]
    · rw [ridPlace, ridPlace, Prod.Lex.toLex_lt_toLex]
      simp [Ne.symm hpage]

/-- Keys whose values are compared by an order are compared by the order of the values and the
record identifiers. -/
theorem keyComparator_sign {A B : Type} [LinearOrder B] {comparator : A → A → Int} {f : A → B}
    {a b : IndexKey A} (hattr : SignOfOrder (comparator a.attr b.attr) (f a.attr) (f b.attr))
    (hrid : f a.attr = f b.attr → RidFits a.rid b.rid) :
    SignOfOrder (keyComparator comparator a b) (toLex (f a.attr, ridPlace a.rid))
      (toLex (f b.attr, ridPlace b.rid)) := by
  unfold keyComparator
  by_cases heq : f a.attr = f b.attr
  · obtain ⟨hneg, hzero, hpos⟩ := (hrid heq).sign
    have h0 : comparator a.attr b.attr = 0 := hattr.zero.mpr heq
    simp only [h0, ne_eq, not_true_eq_false, if_false]
    refine ⟨?_, ?_, ?_⟩
    · rw [Prod.Lex.toLex_lt_toLex, hneg]
      simp [heq]
    · rw [toLex_inj, Prod.mk.injEq, hzero]
      simp [heq]
    · rw [Prod.Lex.toLex_lt_toLex, hpos]
      simp [heq]
  · have h0 : comparator a.attr b.attr ≠ 0 := fun h0 => heq (hattr.zero.mp h0)
    simp only [ne_eq, h0, not_false_eq_true, if_true]
    refine ⟨?_, ?_, ?_⟩
    · rw [Prod.Lex.toLex_lt_toLex, hattr.neg]
      simp [heq]
    · exact iff_of_false h0 fun h => heq (Prod.mk.inj (toLex_inj.mp h)).1
    · rw [Prod.Lex.toLex_lt_toLex, hattr.pos]
      simp [Ne.symm heq]

/-- Keys that are compared by an order are in a total order. -/
theorem total_on_of_sign {type : AttrType} {keys : Set (IndexKey type.Value)} {B : Type}
    [LinearOrder B] {f : type.Value → B}
    (hsame : ∀ v₁ v₂, f v₁ = f v₂ → type.Same v₁ v₂)
    (hattr : ∀ a ∈ keys, ∀ b ∈ keys, type.Fits a.attr b.attr ∧
      SignOfOrder (attrComparator type a.attr b.attr) (f a.attr) (f b.attr))
    (hrid : ∀ a ∈ keys, ∀ b ∈ keys, f a.attr = f b.attr → RidFits a.rid b.rid) :
    TotalOn type keys := by
  have hsign : ∀ a ∈ keys, ∀ b ∈ keys,
      SignOfOrder (keyComparator (attrComparator type) a b) (toLex (f a.attr, ridPlace a.rid))
        (toLex (f b.attr, ridPlace b.rid)) := by
    intro a ha b hb
    exact keyComparator_sign (hattr a ha b hb).2 (hrid a ha b hb)
  refine ⟨?_, ?_, ?_, ?_⟩
  · intro a ha b hb
    exact (hsign a ha b hb).neg_sign (hsign b hb a ha)
  · intro a ha b hb c hc hab hbc
    rw [(hsign a ha b hb).nonpos_iff] at hab
    rw [(hsign b hb c hc).nonpos_iff] at hbc
    rw [(hsign a ha c hc).nonpos_iff]
    exact hab.trans hbc
  · intro a ha b hb hab
    obtain ⟨hf, hplace⟩ := Prod.mk.inj (toLex_inj.mp ((hsign a ha b hb).zero.mp hab))
    exact ⟨hsame _ _ hf, ridPlace_inj.mp hplace⟩
  · intro a ha b hb
    refine ⟨(hattr a ha b hb).1, fun h0 => hrid a ha b hb ?_⟩
    exact (hattr a ha b hb).2.zero.mp h0

/-! ## Integers -/

theorem compareInt_sign {v₁ v₂ : Int} (h : FitsInt (v₁ - v₂)) :
    SignOfOrder (compareInt v₁ v₂) v₁ v₂ := by
  unfold compareInt
  rw [wrap32_eq h.1 h.2]
  exact ⟨by omega, by omega, by omega⟩

theorem total_on_ints (keys : Set (IndexKey Int)) :
    TotalOn .ints keys ↔ Orderable .ints keys := by
  constructor
  · intro h a ha b hb
    refine ⟨(h.fits a ha b hb).1, fun heq => (h.fits a ha b hb).2 ?_⟩
    show compareInt a.attr b.attr = 0
    rw [heq, compareInt, sub_self]
    rfl
  · intro h
    refine total_on_of_sign (f := id) (fun _ _ heq => heq) ?_ fun a ha b hb => (h a ha b hb).2
    intro a ha b hb
    exact ⟨(h a ha b hb).1, compareInt_sign (h a ha b hb).1⟩

/-! ## Strings -/

/-- The string in a buffer, byte by byte. -/
theorem stringOf_take_succ (n : ℕ) (s : List Byte) : stringOf (s.take (n + 1)) =
    if s.headD 0 = 0 then [] else s.headD 0 :: stringOf (s.tail.take n) := by
  cases s with
  | nil => simp [stringOf]
  | cons c s => by_cases hc : c = 0 <;> simp [stringOf, hc]

/-- Two strings are compared by the bytes before the first zero, as far as the length goes. By
induction on the length. -/
theorem strncmp_sign (n : ℕ) (s t : List Byte) :
    SignOfOrder (strncmp n s t) (stringOf (s.take n)) (stringOf (t.take n)) := by
  induction n generalizing s t with
  | zero => exact ⟨by simp [strncmp], by simp [strncmp], by simp [strncmp]⟩
  | succ n ih =>
    have hnext := ih s.tail t.tail
    rw [stringOf_take_succ, stringOf_take_succ, strncmp]
    generalize s.headD 0 = a
    generalize t.headD 0 = b
    by_cases hab : a = b
    · subst hab
      rw [if_neg (by simp)]
      by_cases ha : a = 0
      · rw [if_pos ha, if_pos ha, if_pos ha]
        exact ⟨by simp, by simp, by simp⟩
      · rw [if_neg ha, if_neg ha, if_neg ha]
        refine ⟨?_, ?_, ?_⟩
        · rw [List.cons_lt_cons_iff, hnext.neg]
          simp
        · rw [hnext.zero]
          simp
        · rw [List.cons_lt_cons_iff, hnext.pos]
          simp
    · have hval : a.val ≠ b.val := fun h => hab (Fin.ext h)
      rw [if_pos hab]
      by_cases ha : a = 0
      · have hb : b ≠ 0 := fun h => hab (ha.trans h.symm)
        have hpos : 0 < b.val := Nat.pos_of_ne_zero fun h => hb (Fin.ext h)
        rw [if_pos ha, if_neg hb, ha]
        refine ⟨iff_of_true ?_ (List.nil_lt_cons _ _), iff_of_false ?_ (by simp),
          iff_of_false ?_ (List.not_lt_nil _)⟩ <;> simp <;> omega
      · by_cases hb : b = 0
        · have hpos : 0 < a.val := Nat.pos_of_ne_zero fun h => ha (Fin.ext h)
          rw [if_neg ha, if_pos hb, hb]
          refine ⟨iff_of_false ?_ (List.not_lt_nil _), iff_of_false ?_ (by simp),
            iff_of_true ?_ (List.nil_lt_cons _ _)⟩ <;> simp <;> omega
        · rw [if_neg ha, if_neg hb]
          refine ⟨?_, ?_, ?_⟩
          · rw [List.cons_lt_cons_iff, Fin.lt_def]
            simp only [hab, false_and, or_false]
            omega
          · exact iff_of_false (by omega) (by simp [hab])
          · rw [List.cons_lt_cons_iff, Fin.lt_def]
            simp only [Ne.symm hab, false_and, or_false]
            omega

/-- Strings in fields of the same length are compared by the bytes before the first zero. -/
theorem strncmp_sign_of_length {n : ℕ} {s t : List Byte} (hs : s.length = n) (ht : t.length = n) :
    SignOfOrder (strncmp n s t) (stringOf s) (stringOf t) := by
  have h := strncmp_sign n s t
  rwa [List.take_of_length_le hs.le, List.take_of_length_le ht.le] at h

theorem compareString_of_length {s t : List Byte} (h : s.length = t.length) :
    compareString s t = strncmp s.length s t := by
  unfold compareString
  simp only [h, min_self, gt_iff_lt, lt_irrefl, if_false]
  split
  · rfl
  · rename_i h0
    simpa using (not_not.mp h0).symm

theorem total_on_chars (attrLength : ℕ) (keys : Set (IndexKey (AttrType.chars attrLength).Value)) :
    TotalOn (.chars attrLength) keys ↔ Orderable (.chars attrLength) keys := by
  have hsign : ∀ v₁ v₂ : List.Vector Byte attrLength,
      SignOfOrder (attrComparator (.chars attrLength) v₁ v₂) (stringOf v₁.toList)
        (stringOf v₂.toList) := by
    intro v₁ v₂
    show SignOfOrder (compareString v₁.toList v₂.toList) _ _
    rw [compareString_of_length (by simp)]
    exact strncmp_sign_of_length rfl (by simp)
  constructor
  · intro h a ha b hb heq
    exact (h.fits a ha b hb).2 ((hsign a.attr b.attr).zero.mpr heq)
  · intro h
    exact total_on_of_sign (f := fun v : List.Vector Byte attrLength => stringOf v.toList)
      (fun _ _ heq => heq) (fun a _ b _ => ⟨trivial, hsign a.attr b.attr⟩) h

/-! ## Floats -/

/-- Two values that are compared as equal. -/
def Near (a b : IndexKey ℚ) : Prop := a.attr - b.attr ≤ exactEps ∧ b.attr - a.attr ≤ exactEps

theorem Near.symm {a b : IndexKey ℚ} (h : Near a b) : Near b a := And.symm h

/-- Keys with values that are near are compared by their record identifiers. -/
theorem Near.sign {a b : IndexKey ℚ} (h : Near a b) (hrid : RidFits a.rid b.rid) :
    SignOfOrder (keyComparator (attrComparator .floats) a b) (ridPlace a.rid) (ridPlace b.rid) := by
  have h0 : attrComparator .floats a.attr b.attr = 0 := compareExact_eq_zero_iff.mpr h
  rw [keyComparator, h0]
  exact hrid.sign

/-- The others are compared by their values. -/
theorem keyComparator_of_far {a b : IndexKey ℚ} (h : exactEps < b.attr - a.attr) :
    keyComparator (attrComparator .floats) a b < 0 ∧
      0 < keyComparator (attrComparator .floats) b a := by
  have hneg : attrComparator .floats a.attr b.attr < 0 := compareExact_neg_iff.mpr h
  have hpos : 0 < attrComparator .floats b.attr a.attr := compareExact_pos_iff.mpr h
  unfold keyComparator
  simp only [ne_eq, hneg.ne, hpos.ne', not_false_eq_true, if_true]
  exact ⟨hneg, hpos⟩

/-- Two values are near, or one of them is far below the other. -/
theorem near_or_far (a b : IndexKey ℚ) :
    Near a b ∨ exactEps < b.attr - a.attr ∨ exactEps < a.attr - b.attr := by
  unfold Near
  by_cases h₁ : a.attr - b.attr ≤ exactEps
  · by_cases h₂ : b.attr - a.attr ≤ exactEps
    · exact Or.inl ⟨h₁, h₂⟩
    · exact Or.inr (Or.inl (not_le.mp h₂))
  · exact Or.inr (Or.inr (not_le.mp h₁))

/-- What it means that a key does not come after another. -/
theorem nonpos_cases {a b : IndexKey ℚ} (hrid : Near a b → RidFits a.rid b.rid)
    (h : keyComparator (attrComparator .floats) a b ≤ 0) :
    exactEps < b.attr - a.attr ∨ Near a b ∧ ridPlace a.rid ≤ ridPlace b.rid := by
  rcases near_or_far a b with hnear | hlt | hgt
  · exact Or.inr ⟨hnear, (hnear.sign (hrid hnear)).nonpos_iff.mp h⟩
  · exact Or.inl hlt
  · exact absurd h (not_le.mpr (keyComparator_of_far hgt).2)

/-- Keys that do not cross are in order. -/
theorem floats_trans {keys : Set (IndexKey ℚ)} (h : Orderable .floats keys) {a b c : IndexKey ℚ}
    (ha : a ∈ keys) (hb : b ∈ keys) (hc : c ∈ keys)
    (hab : keyComparator (attrComparator .floats) a b ≤ 0)
    (hbc : keyComparator (attrComparator .floats) b c ≤ 0) :
    keyComparator (attrComparator .floats) a c ≤ 0 := by
  obtain ⟨hnear, hcross⟩ := h
  have hpos : (0 : ℚ) < exactEps := by unfold exactEps; norm_num
  have hfits : ∀ x ∈ keys, ∀ y ∈ keys, Near x y → RidFits x.rid y.rid :=
    fun x hx y hy h => (hnear x hx y hy h).1
  -- of two near keys with different values the record identifiers differ
  have hstrict : ∀ x ∈ keys, ∀ y ∈ keys, Near x y → x.attr ≠ y.attr →
      ridPlace x.rid ≤ ridPlace y.rid → ridPlace x.rid < ridPlace y.rid := by
    intro x hx y hy hxy hne hle
    refine lt_of_le_of_ne hle fun heq => hne ?_
    exact (hnear x hx y hy hxy).2 (ridPlace_inj.mp heq)
  by_contra hac
  rw [not_le] at hac
  -- the key `c` is far below `a`, or near and below by its record identifier
  have hca : exactEps < a.attr - c.attr ∨ Near a c ∧ ridPlace c.rid < ridPlace a.rid := by
    rcases near_or_far a c with h | h | h
    · exact Or.inr ⟨h, (h.sign (hfits a ha c hc h)).pos.mp hac⟩
    · exact absurd (keyComparator_of_far h).1 (not_lt.mpr hac.le)
    · exact Or.inl h
  rcases nonpos_cases (hfits a ha b hb) hab with hab | ⟨hab, hridab⟩
  · rcases nonpos_cases (hfits b hb c hc) hbc with hbc | ⟨hbc, hridbc⟩
    · rcases hca with hca | ⟨hca, -⟩
      · linarith
      · linarith [hca.2]
    · rcases hca with hca | ⟨hca, hridca⟩
      · linarith [hbc.1]
      · have hlt : a.attr < c.attr := by linarith [hbc.1]
        have hlt' : c.attr < b.attr := by linarith [hca.2]
        refine hcross a ha c hc b hb ⟨⟨hlt, hlt'⟩, ⟨hca.2, hbc.1⟩, hab, ?_, hridca⟩
        exact hstrict b hb c hc hbc hlt'.ne' hridbc
  · rcases nonpos_cases (hfits b hb c hc) hbc with hbc | ⟨hbc, hridbc⟩
    · rcases hca with hca | ⟨hca, hridca⟩
      · linarith [hab.1]
      · have hlt : b.attr < a.attr := by linarith [hca.2]
        have hlt' : a.attr < c.attr := by linarith [hab.1]
        refine hcross b hb a ha c hc ⟨⟨hlt, hlt'⟩, ⟨hab.1, hca.2⟩, hbc, hridca, ?_⟩
        exact hstrict a ha b hb hab hlt.ne' hridab
    · rcases hca with hca | ⟨-, hridca⟩
      · have hlt : c.attr < b.attr := by linarith [hab.1]
        have hlt' : b.attr < a.attr := by linarith [hbc.1]
        refine hcross c hc b hb a ha ⟨⟨hlt, hlt'⟩, ⟨hbc.1, hab.1⟩, hca, ?_, ?_⟩
        · exact hstrict a ha b hb hab hlt'.ne' hridab
        · exact hstrict b hb c hc hbc hlt.ne' hridbc
      · exact absurd (hridab.trans hridbc) (not_le.mpr hridca)

theorem total_on_floats (keys : Set (IndexKey ℚ)) :
    TotalOn .floats keys ↔ Orderable .floats keys := by
  constructor
  · intro h
    have hfits : ∀ a ∈ keys, ∀ b ∈ keys, Near a b → RidFits a.rid b.rid :=
      fun a ha b hb hnear => (h.fits a ha b hb).2 (compareExact_eq_zero_iff.mpr hnear)
    have hsign : ∀ a ∈ keys, ∀ b ∈ keys, Near a b →
        SignOfOrder (keyComparator (attrComparator .floats) a b) (ridPlace a.rid)
          (ridPlace b.rid) :=
      fun a ha b hb hnear => hnear.sign (hfits a ha b hb hnear)
    refine ⟨?_, ?_⟩
    · intro a ha b hb hnear
      refine ⟨hfits a ha b hb hnear, fun heq => ?_⟩
      exact (h.zero a ha b hb ((hsign a ha b hb hnear).zero.mpr (by rw [heq]))).1
    · rintro a ha b hb c hc ⟨⟨hab, hbc⟩, ⟨hnear, hnear'⟩, hfar, hcb, hba⟩
      have hpos : (0 : ℚ) < exactEps := by unfold exactEps; norm_num
      have hle := h.trans c hc b hb a ha
        ((hsign c hc b hb ⟨hnear', by linarith⟩).neg.mpr hcb).le
        ((hsign b hb a ha ⟨hnear, by linarith⟩).neg.mpr hba).le
      exact absurd hle (not_le.mpr (keyComparator_of_far hfar).2)
  · intro h
    have hfits : ∀ a ∈ keys, ∀ b ∈ keys, Near a b → RidFits a.rid b.rid :=
      fun a ha b hb hnear => (h.1 a ha b hb hnear).1
    refine ⟨?_, fun a ha b hb c hc => floats_trans h ha hb hc, ?_, ?_⟩
    · intro a ha b hb
      rcases near_or_far a b with hnear | hlt | hgt
      · exact (hnear.sign (hfits a ha b hb hnear)).neg_sign
          (hnear.symm.sign (hfits b hb a ha hnear.symm))
      · obtain ⟨hneg, hpos⟩ := keyComparator_of_far hlt
        rw [Int.sign_eq_neg_one_of_neg hneg, Int.sign_eq_one_of_pos hpos]
      · obtain ⟨hneg, hpos⟩ := keyComparator_of_far hgt
        rw [Int.sign_eq_neg_one_of_neg hneg, Int.sign_eq_one_of_pos hpos]
        rfl
    · intro a ha b hb h0
      rcases near_or_far a b with hnear | hlt | hgt
      · have heq := ridPlace_inj.mp ((hnear.sign (hfits a ha b hb hnear)).zero.mp h0)
        exact ⟨(h.1 a ha b hb hnear).2 heq, heq⟩
      · exact absurd h0 (keyComparator_of_far hlt).1.ne
      · exact absurd h0 (keyComparator_of_far hgt).2.ne'
    · intro a ha b hb
      refine ⟨trivial, fun h0 => hfits a ha b hb ?_⟩
      exact compareExact_eq_zero_iff.mp h0

/-! ## All types -/

/-- The comparison is a total order on a set of keys if and only if no difference of two integers
overflows, no two keys with different values that are near have the same record identifier, and no
three keys cross. -/
theorem total_on_iff (type : AttrType) (keys : Set (IndexKey type.Value)) :
    TotalOn type keys ↔ Orderable type keys := by
  cases type with
  | ints => exact total_on_ints keys
  | floats => exact total_on_floats keys
  | chars attrLength => exact total_on_chars attrLength keys

/-- The smallest integer and zero: their difference is the smallest integer in both directions, and
either key is below the other. -/
theorem ints_not_total : ¬ TotalOn .ints Set.univ := by
  intro h
  have hsign := h.antisymm ⟨-2147483648, ⟨1, 0⟩⟩ trivial ⟨0, ⟨1, 0⟩⟩ trivial
  exact absurd hsign (by decide)

end Miniob.Storage.Index
