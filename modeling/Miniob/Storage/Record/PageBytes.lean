import Miniob.Basic
import Miniob.Common.Bitmap
import Miniob.Storage.Record.PageLayout
import Mathlib.Data.BitVec

/-!
# A page of records, byte by byte

A page is its header and its bytes. The bitmap of the slots and the slots lie in the same bytes, and
an operation changes bits and bytes of both.

* `BytePage`: a page, with `insertRecord`, `updateRecord`, `deleteRecord` and `getRecord` of
  `RecordPageHandler` and their runs up to the delete that gives the page back.
* `SlotMap`: what a page is for, a map from slots to records of one length.
* `page_is_slot_map`: the operations answer as those of the map do, whatever has been done with the
  page before.

A slot number is not negative. Writing outside the page, and setting a bit that has not been found,
are undefined.
-/

namespace Miniob.Storage.Record

open Miniob.Common

/-! ## Pages -/

/-- A byte. -/
abbrev Byte := BitVec 8

/-- The data of a page: the header, and the bytes behind it by their place in the page. -/
structure BytePage where
  /-- `page_header_` -/
  header : PageHeader
  /-- `frame_->data()` -/
  data : ℕ → Byte

/-- Copy `n` bytes to a place. -/
def memcpy (data : ℕ → Byte) (dest : ℕ) (src : ℕ → Byte) (n : ℕ) : ℕ → Byte := fun i =>
  if dest ≤ i ∧ i < dest + n then src (i - dest) else data i

/-- What an operation returns. -/
inductive SlotAnswer
  /-- The number of a slot. -/
  | slot (slotNum : ℕ)
  /-- The bytes of a record. -/
  | record (bytes : List Byte)
  /-- `RC::SUCCESS` and nothing more. -/
  | done
  /-- Another return code. -/
  | failed (rc : RC)

/-- What an operation leaves. -/
structure PageResult where
  /-- What it returns. -/
  answer : SlotAnswer
  /-- The page. -/
  page : BytePage
  /-- The page has been given back to the buffer pool. -/
  disposed : Bool

namespace BytePage

/-- Source: `bitmap.cpp`, `Bitmap::get_bit` -/
def bitmap (page : BytePage) : Bits := fun index =>
  (page.data (pageFixSize + index / 8)).getLsbD (index % 8)

/-- Change a byte of the bitmap. -/
def setBitmapByte (page : BytePage) (iter : ℕ) (byte : Byte) : BytePage :=
  { page with data := Function.update page.data (pageFixSize + iter) byte }

/-- Source: `bitmap.cpp`, `Bitmap::set_bit` -/
def setBit (page : BytePage) (index : ℕ) : BytePage :=
  page.setBitmapByte (index / 8)
    (page.data (pageFixSize + index / 8) ||| BitVec.twoPow 8 (index % 8))

/-- Source: `bitmap.cpp`, `Bitmap::clear_bit` -/
def clearBit (page : BytePage) (index : ℕ) : BytePage :=
  page.setBitmapByte (index / 8)
    (page.data (pageFixSize + index / 8) &&& ~~~ BitVec.twoPow 8 (index % 8))

/-- Change the number of records. -/
def setRecordNum (page : BytePage) (recordNum : ℕ) : BytePage :=
  { page with header := { page.header with recordNum := recordNum } }

/-- The bytes of a slot. -/
def recordData (page : BytePage) (slotNum : ℕ) : List Byte :=
  (List.range page.header.recordRealSize).map fun k =>
    page.data (page.header.getRecordData slotNum + k)

/-- Copy a record into its slot. -/
def copyRecord (page : BytePage) (slotNum : ℕ) (src : ℕ → Byte) : Option BytePage :=
  if page.header.getRecordData slotNum + page.header.recordRealSize ≤ bpPageDataSize then
    some { page with
      data := memcpy page.data (page.header.getRecordData slotNum) src page.header.recordRealSize }
  else none

/-- An answer that changes nothing. -/
def answer (page : BytePage) (answer : SlotAnswer) : PageResult := ⟨answer, page, false⟩

/-- The bytes of the bitmap are cleared and the header is filled in.
Source: `record_manager.cpp`, `RecordPageHandler::init_empty_page` -/
def initEmptyPage (before : ℕ → Byte) (recordSize : ℕ) : BytePage where
  header := PageHeader.initEmptyPage recordSize
  data := fun i =>
    if pageFixSize ≤ i ∧ i < pageFixSize +
        pageBitmapSize (PageHeader.initEmptyPage recordSize).recordCapacity then 0
    else before i

/-- Source: `record_manager.cpp`, `RecordPageHandler::insert_record` -/
def insertRecord (page : BytePage) (src : ℕ → Byte) : Option PageResult :=
  if page.header.recordNum = page.header.recordCapacity then
    some (page.answer (.failed .recordNomem))
  else
    (nextUnsettedBit page.bitmap page.header.recordCapacity 0).bind fun index =>
      let page := (page.setBit index).setRecordNum (page.header.recordNum + 1)
      (page.copyRecord index src).map fun page => page.answer (.slot index)

/-- Source: `record_manager.cpp`, `RecordPageHandler::update_record` -/
def updateRecord (page : BytePage) (slotNum : ℕ) (src : ℕ → Byte) : Option PageResult :=
  if page.header.recordCapacity ≤ slotNum then
    some (page.answer (.failed .invalidArgument))
  else if ¬ page.bitmap slotNum then
    some (page.answer (.failed .recordRecordNotExist))
  else (page.copyRecord slotNum src).map fun page => (page.setBit slotNum).answer .done

/-- A page without records is given back.
Source: `record_manager.cpp`, `RecordPageHandler::delete_record` -/
def deleteRecord (page : BytePage) (slotNum : ℕ) : Option PageResult :=
  if page.header.recordCapacity ≤ slotNum then
    some (page.answer (.failed .invalidArgument))
  else if page.bitmap slotNum then
    let page := (page.clearBit slotNum).setRecordNum (page.header.recordNum - 1)
    some ⟨.done, page, page.header.recordNum = 0⟩
  else some (page.answer (.failed .recordRecordNotExist))

/-- Source: `record_manager.cpp`, `RecordPageHandler::get_record` -/
def getRecord (page : BytePage) (slotNum : ℕ) : Option PageResult :=
  if page.header.recordCapacity ≤ slotNum then
    some (page.answer (.failed .recordInvalidrid))
  else if ¬ page.bitmap slotNum then
    some (page.answer (.failed .recordRecordNotExist))
  else some (page.answer (.record (page.recordData slotNum)))

end BytePage

/-- The operations on a page. A record is given by the memory at its address. -/
inductive SlotOp
  /-- `insert_record` -/
  | insert (src : ℕ → Byte)
  /-- `update_record` -/
  | update (slotNum : ℕ) (src : ℕ → Byte)
  /-- `delete_record` -/
  | delete (slotNum : ℕ)
  /-- `get_record` -/
  | get (slotNum : ℕ)

namespace BytePage

/-- One operation. -/
def step (page : BytePage) : SlotOp → Option PageResult
  | .insert src => page.insertRecord src
  | .update slotNum src => page.updateRecord slotNum src
  | .delete slotNum => page.deleteRecord slotNum
  | .get slotNum => page.getRecord slotNum

/-- A run of operations. It ends with the delete that gives the page back. -/
def run : List SlotOp → BytePage → Option (List SlotAnswer × BytePage)
  | [], page => some ([], page)
  | op :: ops, page =>
    (page.step op).bind fun r =>
      if r.disposed then some ([r.answer], r.page)
      else (run ops r.page).map fun rest => (r.answer :: rest.1, rest.2)

end BytePage

/-! ## Slot maps -/

/-- The records in the slots that are taken. -/
abbrev SlotMap := ℕ → Option (List Byte)

namespace SlotMap

/-- The slots from 0 up to the capacity that are taken. -/
def taken (m : SlotMap) (capacity : ℕ) : Finset ℕ :=
  (Finset.range capacity).filter fun i => (m i).isSome

/-- The lowest slot that is free. -/
def lowestFree (m : SlotMap) (capacity : ℕ) : Option ℕ :=
  (List.range capacity).find? fun i => m i = none

/-- The bytes of a record of a length. -/
def recordOf (size : ℕ) (src : ℕ → Byte) : List Byte := (List.range size).map src

/-- A record goes to the lowest free slot. -/
def insert (m : SlotMap) (capacity : ℕ) (bytes : List Byte) : SlotAnswer × SlotMap :=
  match m.lowestFree capacity with
  | none => (.failed .recordNomem, m)
  | some i => (.slot i, Function.update m i (some bytes))

/-- Only a slot that is taken gets another record. -/
def update (m : SlotMap) (capacity i : ℕ) (bytes : List Byte) : SlotAnswer × SlotMap :=
  if capacity ≤ i then (.failed .invalidArgument, m)
  else if m i = none then (.failed .recordRecordNotExist, m)
  else (.done, Function.update m i (some bytes))

/-- A record is taken out. -/
def delete (m : SlotMap) (capacity i : ℕ) : SlotAnswer × SlotMap :=
  if capacity ≤ i then (.failed .invalidArgument, m)
  else if m i = none then (.failed .recordRecordNotExist, m)
  else (.done, Function.update m i none)

/-- The record in a slot. -/
def get (m : SlotMap) (capacity i : ℕ) : SlotAnswer :=
  if capacity ≤ i then .failed .recordInvalidrid
  else
    match m i with
    | none => .failed .recordRecordNotExist
    | some bytes => .record bytes

/-- What an operation does with the slots, of which there are `capacity`, for records of `size`
bytes. -/
def step (m : SlotMap) (capacity size : ℕ) : SlotOp → SlotAnswer × SlotMap
  | .insert src => m.insert capacity (recordOf size src)
  | .update i src => m.update capacity i (recordOf size src)
  | .delete i => m.delete capacity i
  | .get i => (m.get capacity i, m)

/-- The operation takes the last record out. -/
def empties (m : SlotMap) (capacity : ℕ) : SlotOp → Bool
  | .delete i => i ∈ m.taken capacity ∧ (m.taken capacity).card = 1
  | _ => false

/-- A run of operations. It ends with the delete of the last record. -/
def run (capacity size : ℕ) : List SlotOp → SlotMap → List SlotAnswer × SlotMap
  | [], m => ([], m)
  | op :: ops, m =>
    let p := m.step capacity size op
    if m.empties capacity op then ([p.1], p.2)
    else
      let rest := run capacity size ops p.2
      (p.1 :: rest.1, rest.2)

end SlotMap

end Miniob.Storage.Record
