import Mathlib.Data.Int.Init
import Mathlib.Data.Int.Order.Basic
import Mathlib.Tactic.Linarith

/-!
# Return codes, page numbers and record identifiers

The vocabulary every part of the storage engine shares: the return codes of `rc.h` that the
modelled functions return, the check for blank names, and `RID` with `RID::compare`. Page and slot numbers (`PageNum` and
`SlotNum`, 32-bit integers) are integers here, with `-1` for "no page".
-/

namespace Miniob

/-- The return codes the modelled functions return.
Source: `rc.h`, `enum RC` -/
inductive RC
  | success
  | genericError
  | invalidArgument
  | unimplenment
  | internal
  | nomem
  | notfound
  | empty
  | lockedUnlock
  | bufferpoolNobuf
  | bufferpoolOpen
  | recordOpenned
  | recordInvalidrid
  | recordInvalidKey
  | recordDuplicateKey
  | recordNomem
  | recordEof
  | recordRecordNotExist
  | schemaDbExist
  | schemaTableNotExist
  | schemaFieldNotExist
  | schemaFieldMissing
  | schemaFieldTypeMismatch
  | schemaIndexExist
  | ioerr
  | ioerrAccess
  | ioerrSeek
  | ioerrRead
  | ioerrWrite
  | logbufFull
  deriving DecidableEq, Repr

/-- A computation that succeeds has succeeded in its first step. -/
theorem bind_inv {α β : Type} {x : Except RC α} {f : α → Except RC β} {b : β}
    (h : (do f (← x)) = .ok b) : ∃ a, x = .ok a ∧ f a = .ok b := by
  cases x with
  | error rc => cases h
  | ok a => exact ⟨a, rfl, h⟩

/-- A computation that fails has failed in its first step or after it. -/
theorem bind_error {α β : Type} {x : Except RC α} {f : α → Except RC β} {rc : RC}
    (h : (do f (← x)) = .error rc) : x = .error rc ∨ ∃ a, x = .ok a ∧ f a = .error rc := by
  cases x with
  | error rc' =>
    cases h
    exact .inl rfl
  | ok a => exact .inr ⟨a, rfl, h⟩

/-- A first step that succeeds. -/
theorem ok_bind {α β : Type} (a : α) (f : α → Except RC β) : (do f (← .ok a)) = f a := rfl

/-- White space of the C locale. -/
def isspace (c : Char) : Bool :=
  c = ' ' || ('\t'.toNat ≤ c.toNat && c.toNat ≤ '\r'.toNat)

/-- Source: `string.cpp`, `is_blank` -/
def isBlank (s : String) : Bool := s.toList.all isspace

/-- The page number that names no page. Source: `disk_buffer_pool.h`, `BP_INVALID_PAGE_NUM` -/
def bpInvalidPageNum : Int := -1

/-- The value a 32-bit signed computation leaves in place of the integer `x`. -/
def wrap32 (x : Int) : Int := Int.bmod x 4294967296

/-- A difference that fits in 32 bits is computed exactly. -/
theorem wrap32_eq {x : Int} (h₁ : -2147483648 ≤ x) (h₂ : x ≤ 2147483647) : wrap32 x = x := by
  unfold wrap32
  rw [Int.bmod_def]
  omega

/-- A record identifier. Source: `record.h`, `struct RID` -/
structure RID where
  /-- The record's page. -/
  pageNum : Int
  /-- The record's slot in that page. -/
  slotNum : Int
  deriving DecidableEq, Repr, Inhabited

/-- Order of record identifiers, by page and then by slot, as a signed difference.
Source: `record.h`, `RID::compare` -/
def RID.compare (rid₁ rid₂ : RID) : Int :=
  let pageDiff := wrap32 (rid₁.pageNum - rid₂.pageNum)
  if pageDiff ≠ 0 then pageDiff else wrap32 (rid₁.slotNum - rid₂.slotNum)

/-- The least identifier used as a scan bound. Source: `record.h`, `RID::min` -/
def RID.min : RID := ⟨0, 0⟩

/-- The greatest identifier used as a scan bound. Source: `record.h`, `RID::max` -/
def RID.max : RID := ⟨2147483647, 2147483647⟩

end Miniob
