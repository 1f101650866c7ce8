import Mathlib.Data.List.TakeWhile
import Miniob.Common.Comparator
import Miniob.Storage.Index.Node

/-!
# Cells of a tuple

The value of a column, or a constant, with its type. Two cells are compared by the function of
`comparator.cpp` for their type, an integer with a `float` as two `float`s, and any other two cells
not at all.

* `CompOp`: the comparisons of a condition, and what they say of two values of an order.
* `TupleCell`, `TupleCell.compare`: the cells.
* `compareTupleCell`: what a comparison in a condition says of two cells.
* `chars_compare_iff`: strings are compared in their order, unless the one is the beginning of the
  other and the next byte is negative as a `char`.

An integer is rounded when it becomes a `float`.
-/

namespace Miniob.Sql

open Miniob.Common Miniob.Storage.Index

/-- Source: `parse_defs.h`, `enum CompOp` -/
inductive CompOp
  | equalTo
  | lessEqual
  | notEqual
  | lessThan
  | greatEqual
  | greatThan
  deriving DecidableEq, Repr

/-- What a comparison says of two values of an order. -/
def CompOp.holds {A : Type} [LinearOrder A] : CompOp → A → A → Bool
  | equalTo, x, y => x = y
  | lessEqual, x, y => x ≤ y
  | notEqual, x, y => x ≠ y
  | lessThan, x, y => x < y
  | greatEqual, x, y => y ≤ x
  | greatThan, x, y => y < x

/-- Source: `parse_defs.h`, `enum AttrType` -/
inductive CellType
  | undefined
  | chars
  | ints
  | floats
  | booleans
  deriving DecidableEq

/-- Source: `tuple_cell.h`, `class TupleCell` -/
inductive TupleCell
  /-- A cell whose type has not been set. -/
  | undefined
  /-- `INTS` -/
  | ints (intValue : Int)
  /-- `FLOATS` -/
  | floats (floatValue : Float32)
  /-- `CHARS` -/
  | chars (strValue : List Byte)
  /-- `BOOLEANS` -/
  | booleans (boolValue : Bool)
  deriving DecidableEq

namespace TupleCell

/-- `attr_type_` -/
def attrType : TupleCell → CellType
  | undefined => .undefined
  | ints _ => .ints
  | floats _ => .floats
  | chars _ => .chars
  | booleans _ => .booleans

/-- The bytes before the first zero, at most `len` of them if `len` is not zero.
Source: `tuple_cell.cpp`, `TupleCell::set_string` -/
def setString (s : List Byte) (len : ℕ) : TupleCell :=
  chars ((if 0 < len then s.take len else s).takeWhile fun c => c ≠ 0)

/-- Cells of different types are not compared, unless both are numbers.
Source: `tuple_cell.cpp`, `TupleCell::compare` -/
def compare : TupleCell → TupleCell → Int
  | ints v₁, ints v₂ => compareInt v₁ v₂
  | floats v₁, floats v₂ => compareFloat v₁ v₂
  | chars s₁, chars s₂ => compareString s₁ s₂
  | booleans b₁, booleans b₂ => compareInt b₁.toInt b₂.toInt
  | ints v₁, floats v₂ => compareFloat (.ofInt v₁) v₂
  | floats v₁, ints v₂ => compareFloat v₁ (.ofInt v₂)
  | _, _ => -1

/-- The value as a condition. A string that holds a number is not empty, so all paths of its
conversion end in whether it is empty. Source: `tuple_cell.cpp`, `TupleCell::get_boolean` -/
def getBoolean : TupleCell → Bool
  | undefined => false
  | ints v => v ≠ 0
  | floats v => promote v ≥ epsilon ∨ promote v ≤ -epsilon
  | chars s => s ≠ []
  | booleans b => b

end TupleCell

/-- Source: `expression.cpp`, `ComparisonExpr::compare_tuple_cell`; `condition_filter.cpp`,
`DefaultConditionFilter::filter` -/
def compareTupleCell (comp : CompOp) (left right : TupleCell) : Bool :=
  let cmpResult := left.compare right
  match comp with
  | .equalTo => 0 = cmpResult
  | .lessEqual => cmpResult ≤ 0
  | .notEqual => cmpResult ≠ 0
  | .lessThan => cmpResult < 0
  | .greatEqual => 0 ≤ cmpResult
  | .greatThan => 0 < cmpResult

/-- A result with the sign of the order gives the answers of the order. -/
theorem compareTupleCell_of_sign {A : Type} [LinearOrder A] {left right : TupleCell} {a b : A}
    (h : SignOfOrder (left.compare right) a b) (comp : CompOp) :
    compareTupleCell comp left right = comp.holds a b := by
  obtain ⟨hneg, hzero, hpos⟩ := h
  have hle : left.compare right ≤ 0 ↔ a ≤ b := by
    rw [← not_lt, hpos, not_lt]
  have hge : 0 ≤ left.compare right ↔ b ≤ a := by
    rw [← not_lt, hneg, not_lt]
  cases comp with
  | equalTo => exact decide_eq_decide.mpr (eq_comm.trans hzero)
  | lessEqual => exact decide_eq_decide.mpr hle
  | notEqual => exact decide_eq_decide.mpr (not_congr hzero)
  | lessThan => exact decide_eq_decide.mpr hneg
  | greatEqual => exact decide_eq_decide.mpr hge
  | greatThan => exact decide_eq_decide.mpr hpos

/-- Two strings are compared by their order, unsigned byte by unsigned byte, and a condition says of
them what the order says. -/
structure ComparedByOrder (s t : List Byte) : Prop where
  sign : SignOfOrder (TupleCell.compare (.chars s) (.chars t)) s t
  condition : ∀ comp, compareTupleCell comp (.chars s) (.chars t) = CompOp.holds comp s t

/-- Two strings without zeros are compared by their order, on either side of a comparison, if and
only if neither is the beginning of the other with a byte behind it that is negative as a
`char`. -/
theorem chars_compare_iff (s t : List Byte) (hs : 0 ∉ s) (ht : 0 ∉ t) :
    ComparedByOrder s t ∧ ComparedByOrder t s ↔ ¬ HighTail s t ∧ ¬ HighTail t s := by
  have hsign : ∀ s t : List Byte, 0 ∉ s → 0 ∉ t →
      (ComparedByOrder s t ↔ ¬ HighTail s t ∧ ¬ HighTail t s) := by
    intro s t hs ht
    rw [← compareString_sign s t hs ht]
    constructor
    · exact ComparedByOrder.sign
    · intro h
      have h' : SignOfOrder (TupleCell.compare (.chars s) (.chars t)) s t := h
      exact ⟨h', fun comp => compareTupleCell_of_sign h' comp⟩
  rw [hsign s t hs ht, hsign t s ht hs]
  exact and_iff_left_of_imp And.symm

/-- Two words of letters. -/
theorem chars_compare_letters : 0 ∉ ([97, 98] : List Byte) ∧ 0 ∉ ([97] : List Byte) ∧
    (ComparedByOrder [97, 98] [97] ∧ ComparedByOrder [97] [97, 98] ↔
      ¬ HighTail [97, 98] [97] ∧ ¬ HighTail [97] [97, 98]) :=
  ⟨by decide, by decide, chars_compare_iff [97, 98] [97] (by decide) (by decide)⟩

/-- The letter `a` with a letter behind it that is not in ASCII is smaller than `a`. -/
theorem chars_compare_utf8 : TupleCell.compare (.chars [97, 195, 169]) (.chars [97]) < 0 ∧
    ¬ ComparedByOrder [97, 195, 169] [97] := by
  refine ⟨by decide, fun h => ?_⟩
  have hlt := h.sign.neg.mp (by decide)
  exact absurd hlt (by decide)

end Miniob.Sql
