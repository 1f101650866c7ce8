import Mathlib.Algebra.Order.Ring.Rat
import Mathlib.Data.List.Lex
import Mathlib.Order.Fin.Basic
import Mathlib.Tactic.Linarith
import Mathlib.Tactic.NormNum
import Miniob.Basic

/-!
# Comparing values

The comparison functions of `comparator.cpp` for other values than integers. A `float` is a
`Float32`, with rounding, infinities and a NaN. A string is a list of bytes. `compare_string`
compares the common length of two strings with `strncmp`, and if there is no difference the next
byte of the longer one with zero, as a `char`, which is signed.

* `compareFloat`, `compareString`: the functions.
* `compareExact`: `compare_float` for numbers whose difference is not rounded.
* `compareString_cons`: the comparison of two strings, byte by byte.
* `compareString_sign`: it is that of the order of the strings, unless the one is the beginning of
  the other and the next byte is negative as a `char`.
-/

namespace Miniob.Common

/-! ## Numbers -/

/-- A `float` as a `double`, which has the same value. -/
def promote (x : Float32) : Float :=
  .ofModel <| .pack <|
    match x.toModel.unpack with
    | .finite sign mantissa exponent _ => .round .binary64 sign mantissa exponent
    | value => value

/-- Source: `defs.h`, `EPSILON` -/
def epsilon : Float := 1e-6

/-- The difference is rounded to a `float`, and compared with a `double`.
Source: `comparator.cpp`, `compare_float` -/
def compareFloat (v₁ v₂ : Float32) : Int :=
  let cmp := promote (v₁ - v₂)
  if cmp > epsilon then 1 else if cmp < -epsilon then -1 else 0

/-- Two integers without a `float` between them are equal as `float`s. -/
example : compareFloat (.ofInt 16777217) (.ofInt 16777216) = 0 := by decide

/-! ## Numbers as exact rationals -/

/-- The number that `EPSILON` stands for. -/
def exactEps : ℚ := 1 / 1000000

/-- `compare_float` on rational numbers, without rounding. -/
def compareExact (v₁ v₂ : ℚ) : Int :=
  let cmp := v₁ - v₂
  if cmp > exactEps then 1 else if cmp < -exactEps then -1 else 0

theorem compareExact_neg_iff {v₁ v₂ : ℚ} : compareExact v₁ v₂ < 0 ↔ exactEps < v₂ - v₁ := by
  have hpos : (0 : ℚ) < exactEps := by unfold exactEps; norm_num
  unfold compareExact
  dsimp only
  split_ifs with h₁ h₂
  · exact iff_of_false (by decide) (by linarith)
  · exact iff_of_true (by decide) (by linarith)
  · exact iff_of_false (by decide) (by linarith)

theorem compareExact_pos_iff {v₁ v₂ : ℚ} : 0 < compareExact v₁ v₂ ↔ exactEps < v₁ - v₂ := by
  unfold compareExact
  dsimp only
  split_ifs with h₁ h₂
  · exact iff_of_true (by decide) h₁
  · exact iff_of_false (by decide) h₁
  · exact iff_of_false (by decide) h₁

theorem compareExact_eq_zero_iff {v₁ v₂ : ℚ} :
    compareExact v₁ v₂ = 0 ↔ v₁ - v₂ ≤ exactEps ∧ v₂ - v₁ ≤ exactEps := by
  have hneg : compareExact v₁ v₂ < 0 ↔ exactEps < v₂ - v₁ := compareExact_neg_iff
  have hpos : 0 < compareExact v₁ v₂ ↔ exactEps < v₁ - v₂ := compareExact_pos_iff
  rw [← not_lt, ← not_lt, ← hneg, ← hpos]
  omega

/-! ## Strings -/

/-- An `unsigned char`. -/
abbrev Byte := Fin 256

/-- Named, so that a literal is the same term in every module. -/
instance neZeroByte : NeZero 256 := ⟨by decide⟩

/-- Named, so that membership is decided by the same term in every module. -/
instance Byte.lawfulBEq : LawfulBEq Byte := inferInstance

/-- The same byte as a `char`, which is signed. -/
def Byte.toChar (c : Byte) : Int := if c.val < 128 then c.val else (c.val : Int) - 256

/-- Bytes are compared as unsigned numbers, up to a difference, the end of both strings or the
given length. Behind its last byte a string has a zero. -/
def strncmp : ℕ → List Byte → List Byte → Int
  | 0, _, _ => 0
  | n + 1, s₁, s₂ =>
    let c₁ := s₁.headD 0
    let c₂ := s₂.headD 0
    if c₁ ≠ c₂ then (c₁.val : Int) - c₂.val else if c₁ = 0 then 0 else strncmp n s₁.tail s₂.tail

/-- The lengths are those of the lists. Source: `comparator.cpp`, `compare_string` -/
def compareString (s₁ s₂ : List Byte) : Int :=
  let maxlen := min s₁.length s₂.length
  let result := strncmp maxlen s₁ s₂
  if result ≠ 0 then result
  else if s₁.length > maxlen then (s₁.getD maxlen 0).toChar - 0
  else if s₂.length > maxlen then 0 - (s₂.getD maxlen 0).toChar
  else 0

theorem compareString_nil_right (s : List Byte) :
    compareString s [] = (s.headD 0).toChar := by
  cases s <;> simp [compareString, strncmp, Byte.toChar]

theorem compareString_nil_left (s : List Byte) :
    compareString [] s = -(s.headD 0).toChar := by
  cases s <;> simp [compareString, strncmp, Byte.toChar]

/-- Two strings that do not end here are compared by their first bytes, and if these are the same
by the others. -/
theorem compareString_cons {a b : Byte} (ha : a ≠ 0) (s t : List Byte) :
    compareString (a :: s) (b :: t) =
      if a ≠ b then (a.val : Int) - b.val else compareString s t := by
  have hmin : min (a :: s).length (b :: t).length = min s.length t.length + 1 := by
    rw [List.length_cons, List.length_cons, Nat.succ_min_succ]
  unfold compareString
  simp only [hmin, strncmp, List.headD_cons, List.tail_cons]
  by_cases hab : a = b
  · subst hab
    simp [ha]
  · have hne : (a.val : Int) - b.val ≠ 0 := by
      intro h
      exact hab (Fin.ext (by omega))
    simp only [ne_eq, hab, not_false_eq_true, if_true, hne]

/-- The string is longer than the other, and the byte behind it is negative as a `char`. -/
def HighTail (s t : List Byte) : Prop :=
  ∃ (c : Byte) (rest : List Byte), s = t ++ c :: rest ∧ 128 ≤ c.val

/-- A comparison that has the sign of the order. -/
structure SignOfOrder {A : Type} [LinearOrder A] (result : Int) (a b : A) : Prop where
  neg : result < 0 ↔ a < b
  zero : result = 0 ↔ a = b
  pos : 0 < result ↔ b < a

instance {A : Type} [LinearOrder A] (result : Int) (a b : A) :
    Decidable (SignOfOrder result a b) :=
  decidable_of_iff ((result < 0 ↔ a < b) ∧ (result = 0 ↔ a = b) ∧ (0 < result ↔ b < a))
    ⟨fun h => ⟨h.1, h.2.1, h.2.2⟩, fun h => ⟨h.neg, h.zero, h.pos⟩⟩

/-- A comparison by an order has the opposite sign the other way round. -/
theorem SignOfOrder.neg_sign {A : Type} [LinearOrder A] {a b : A} {x y : Int}
    (hx : SignOfOrder x a b) (hy : SignOfOrder y b a) : x.sign = -y.sign := by
  rcases lt_trichotomy a b with hlt | heq | hgt
  · rw [Int.sign_eq_neg_one_of_neg (hx.neg.mpr hlt), Int.sign_eq_one_of_pos (hy.pos.mpr hlt)]
  · rw [hx.zero.mpr heq, hy.zero.mpr heq.symm]
    rfl
  · rw [Int.sign_eq_one_of_pos (hx.pos.mpr hgt), Int.sign_eq_neg_one_of_neg (hy.neg.mpr hgt)]
    rfl

theorem SignOfOrder.nonpos_iff {A : Type} [LinearOrder A] {a b : A} {x : Int}
    (hx : SignOfOrder x a b) : x ≤ 0 ↔ a ≤ b := by
  rw [← not_lt, hx.pos, not_lt]

theorem not_highTail_nil (s : List Byte) : ¬ HighTail [] s := by
  rintro ⟨c, rest, heq, -⟩
  exact absurd heq.symm (by simp)

theorem highTail_cons_nil {c : Byte} {s : List Byte} : HighTail (c :: s) [] ↔ 128 ≤ c.val := by
  constructor
  · rintro ⟨c', rest, heq, hc⟩
    cases heq
    exact hc
  · exact fun hc => ⟨c, s, rfl, hc⟩

theorem highTail_cons {a b : Byte} {s t : List Byte} :
    HighTail (a :: s) (b :: t) ↔ a = b ∧ HighTail s t := by
  unfold HighTail
  simp only [List.cons_append, List.cons.injEq]
  constructor
  · rintro ⟨c, rest, ⟨hab, heq⟩, hc⟩
    exact ⟨hab, c, rest, heq, hc⟩
  · rintro ⟨hab, c, rest, heq, hc⟩
    exact ⟨c, rest, ⟨hab, heq⟩, hc⟩

theorem toChar_sign {c : Byte} (hc : c ≠ 0) : (0 < c.toChar ↔ c.val < 128) ∧ c.toChar ≠ 0 := by
  have hpos : 0 < c.val := Nat.pos_of_ne_zero fun h => hc (Fin.ext h)
  have hlt := c.isLt
  unfold Byte.toChar
  split <;> omega

/-- Two strings without zeros compare equal if they are the same. By induction on the first. -/
theorem compareString_eq_zero_iff {s t : List Byte} (hs : 0 ∉ s) (ht : 0 ∉ t) :
    compareString s t = 0 ↔ s = t := by
  induction s generalizing t with
  | nil =>
    cases t with
    | nil => exact iff_of_true (by decide) rfl
    | cons c t =>
      have hne := (toChar_sign (c := c) fun h => ht (by simp [h])).2
      rw [compareString_nil_left, List.headD_cons]
      exact iff_of_false (by omega) (by simp)
  | cons a s ih =>
    have ha : a ≠ 0 := fun h => hs (by simp [h])
    cases t with
    | nil =>
      have hne := (toChar_sign ha).2
      rw [compareString_nil_right, List.headD_cons]
      exact iff_of_false hne (by simp)
    | cons b t =>
      rw [compareString_cons ha, List.cons.injEq]
      by_cases hab : a = b
      · rw [if_neg (not_not.mpr hab), ih (fun h => hs (List.mem_cons_of_mem _ h))
          fun h => ht (List.mem_cons_of_mem _ h)]
        exact (and_iff_right hab).symm
      · rw [if_pos hab]
        exact iff_of_false (fun h => hab (Fin.ext (by omega))) fun h => hab h.1

/-- The sign is that of the order if and only if neither string is the beginning of the other with
a byte behind it that is negative as a `char`. -/
theorem compareString_sign (s t : List Byte) (hs : 0 ∉ s) (ht : 0 ∉ t) :
    SignOfOrder (compareString s t) s t ↔ ¬ HighTail s t ∧ ¬ HighTail t s := by
  induction s generalizing t with
  | nil =>
    cases t with
    | nil =>
      refine iff_of_true ?_ ⟨not_highTail_nil _, not_highTail_nil _⟩
      have hzero : compareString [] [] = 0 := by decide
      exact ⟨by simp [hzero], by simp [hzero], by simp [hzero]⟩
    | cons c t =>
      obtain ⟨hsign, hne⟩ := toChar_sign (c := c) fun h => ht (by simp [h])
      rw [compareString_nil_left, List.headD_cons, highTail_cons_nil, not_le,
        and_iff_right (not_highTail_nil _), ← hsign]
      constructor
      · exact fun h => by simpa using h.neg.mpr (List.nil_lt_cons c t)
      · intro hpos
        refine ⟨?_, ?_, ?_⟩
        · simp [hpos]
        · simp [hne]
        · refine iff_of_false (by omega) ?_
          exact List.not_lt_nil _
  | cons a s ih =>
    have ha : a ≠ 0 := fun h => hs (by simp [h])
    cases t with
    | nil =>
      obtain ⟨hsign, hne⟩ := toChar_sign ha
      rw [compareString_nil_right, List.headD_cons, highTail_cons_nil, not_le,
        and_iff_left (not_highTail_nil _), ← hsign]
      constructor
      · exact fun h => by simpa using h.pos.mpr (List.nil_lt_cons a s)
      · intro hpos
        refine ⟨?_, ?_, ?_⟩
        · refine iff_of_false (by omega) ?_
          exact List.not_lt_nil _
        · simp [hne]
        · simp [hpos]
    | cons b t =>
      rw [compareString_cons ha, highTail_cons, highTail_cons]
      by_cases hab : a = b
      · subst hab
        rw [if_neg (by simp)]
        have hnext := ih t (fun h => hs (List.mem_cons_of_mem _ h))
          fun h => ht (List.mem_cons_of_mem _ h)
        simp only [true_and, ← hnext]
        constructor
        · rintro ⟨hneg, hzero, hpos⟩
          exact ⟨by simpa using hneg, by simpa using hzero, by simpa using hpos⟩
        · rintro ⟨hneg, hzero, hpos⟩
          exact ⟨by simpa using hneg, by simpa using hzero, by simpa using hpos⟩
      · rw [if_pos hab]
        refine iff_of_true ⟨?_, ?_, ?_⟩ ⟨fun h => hab h.1, fun h => hab h.1.symm⟩
        · rw [List.cons_lt_cons_iff, Fin.lt_def]
          simp only [hab, false_and, or_false]
          omega
        · refine iff_of_false (fun h => hab (Fin.ext (by omega))) (by simp [hab])
        · rw [List.cons_lt_cons_iff, Fin.lt_def]
          simp only [Ne.symm hab, false_and, or_false]
          omega

end Miniob.Common
