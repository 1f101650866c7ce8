import Mathlib.Data.List.GetD
import Mathlib.Tactic.Push
import Miniob.Sql.Expr.RowTuple
import Miniob.Storage.Meta.ColumnLayout

/-!
# Making a record of values

`Table::make_record` checks the number and the types of the values and copies each one to the place
of its column. A number is copied with the declared length of the column, a string with at most one
byte more than it has.

* `Value`, `makeRecord`: the values of `INSERT`, and the record that is made of them.
* `copyColumns_get`: the bytes of a record after the loop.
* `ReadsBack`: what reading the record should give. `reads_back_iff` says that it gives this if and
  only if every column of numbers has four bytes and every string fits in its column and has no
  zero.

A record is memory that is not cleared, and neither the memory behind a record nor the memory behind
a value is known. A `float` is given by its bits.
-/

namespace Miniob.Storage.Meta

open Miniob.Sql Miniob.Storage.Record

/-! ## Values -/

/-- Source: `parse_defs.h`, `struct Value` -/
inductive Value
  /-- `UNDEFINED` -/
  | undefined
  /-- `CHARS` -/
  | chars (stringValue : List Byte)
  /-- `INTS` -/
  | ints (intValue : BitVec 32)
  /-- `FLOATS` -/
  | floats (floatValue : BitVec 32)
  /-- `BOOLEANS` -/
  | booleans (boolValue : Bool)
  deriving DecidableEq

/-- The bytes of an `int`, the least significant one first. -/
def intBytes (v : BitVec 32) : List Byte :=
  [v.extractLsb' 0 8, v.extractLsb' 8 8, v.extractLsb' 16 8, v.extractLsb' 24 8]

namespace Value

/-- `type` -/
def type : Value → AttrType
  | undefined => .undefined
  | chars _ => .chars
  | ints _ => .ints
  | floats _ => .floats
  | booleans _ => .booleans

/-- `string_value` -/
def stringValue : Value → List Byte
  | chars s => s
  | _ => []

/-- The bytes of the value. A string has a zero behind its last byte.
Source: `parse.cpp`, `Value::data` -/
def data : Value → List Byte
  | undefined => []
  | chars s => s ++ [0]
  | ints v => intBytes v
  | floats v => intBytes v
  | booleans b => [if b then 1 else 0]

/-- The memory from the first byte of the value on. -/
def memory (value : Value) (beyond : ℕ → Byte) : ℕ → Byte := fun k => value.data.getD k (beyond k)

/-- The cell that the value is read back as. -/
def toCell : Value → DataCell
  | undefined => .undefined
  | chars s => .chars s
  | ints v => .ints v
  | floats v => .floats v
  | booleans b => .booleans b

end Value

/-! ## Copying -/

/-- The number of bytes that are copied. Source: `table.cpp`, `Table::make_record` -/
def copyLen (field : FieldMeta) (value : Value) : ℕ :=
  if field.type = .chars ∧ value.stringValue.length < field.len.toNat then
    value.stringValue.length + 1
  else field.len.toNat

/-- The loop over the columns. Source: `table.cpp`, `Table::make_record` -/
def copyColumns : (ℕ → ℕ → Byte) → List FieldMeta → List Value → (ℕ → Byte) → ℕ → Byte
  | beyond, field :: fields, value :: values, record =>
    copyColumns (fun j => beyond (j + 1)) fields values
      (memcpy record field.offset.toNat (value.memory (beyond 0)) (copyLen field value))
  | _, _, _, record => record

/-- A record of a negative size cannot be allocated.
Source: `table.cpp`, `Table::make_record` -/
def makeRecord (m : TableMeta) (heap : ℕ → Byte) (beyond : ℕ → ℕ → Byte) (values : List Value) :
    Option (Except RC (ℕ → Byte)) :=
  let fields := m.fields.drop TableMeta.sysFieldNum
  if values.length + TableMeta.sysFieldNum ≠ m.fields.length then some (.error .schemaFieldMissing)
  else if ∃ p ∈ fields.zip values, p.1.type ≠ p.2.type then
    some (.error .schemaFieldTypeMismatch)
  else if m.recordSize < 0 then none
  else some (.ok (copyColumns beyond fields values heap))

/-- The values are accepted. -/
def Accepts (m : TableMeta) (values : List Value) : Prop :=
  values.length + TableMeta.sysFieldNum = m.fields.length ∧
    (∀ p ∈ (m.fields.drop TableMeta.sysFieldNum).zip values, p.1.type = p.2.type) ∧
      0 ≤ m.recordSize

/-- What reading the columns should give. -/
structure ReadsBack (m : TableMeta) (values : List Value) : Prop where
  /-- A string that has a zero or does not fit is not accepted. -/
  fits : ∀ p ∈ (m.fields.drop TableMeta.sysFieldNum).zip values, ∀ s, p.2 = .chars s →
    0 ∉ s ∧ s.length ≤ p.1.len.toNat
  /-- A column is read as its value, whatever the other values are. -/
  columns : ∀ i value, values[i]? = some value → ∀ values' heap beyond record,
    values'[i]? = some value → makeRecord m heap beyond values' = some (.ok record) →
      (RowTuple.mk record m.fields m.fields).cellAt (i + TableMeta.sysFieldNum : ℕ) =
        .ok value.toCell
  /-- No more bytes are copied than the value has. -/
  copies : ∀ p ∈ (m.fields.drop TableMeta.sysFieldNum).zip values,
    copyLen p.1 p.2 ≤ p.2.data.length

variable {m : TableMeta} {values : List Value} {heap : ℕ → Byte} {beyond : ℕ → ℕ → Byte}
  {record : ℕ → Byte} {field : FieldMeta} {value : Value} {fields : List FieldMeta} {i j k : ℕ}

/-- What a successful call makes. -/
theorem makeRecord_eq_ok_iff : makeRecord m heap beyond values = some (.ok record) ↔
    Accepts m values ∧
      record = copyColumns beyond (m.fields.drop TableMeta.sysFieldNum) values heap := by
  unfold makeRecord Accepts
  dsimp only
  split_ifs with hnum htype hsize
  · exact iff_of_false (by simp) fun h => hnum h.1.1
  · obtain ⟨p, hp, hne⟩ := htype
    exact iff_of_false (by simp) fun h => hne (h.1.2.1 p hp)
  · exact iff_of_false (by simp) fun h => absurd h.1.2.2 (by omega)
  · push Not at hnum htype hsize
    simp only [Option.some.injEq, Except.ok.injEq]
    constructor
    · rintro rfl
      exact ⟨⟨hnum, htype, hsize⟩, rfl⟩
    · rintro ⟨-, rfl⟩
      rfl

/-! ## The bytes of a record -/

/-- No copy goes past the end of its column. -/
theorem copyLen_le : copyLen field value ≤ field.len.toNat := by
  unfold copyLen
  split <;> omega

theorem copyLen_of_ne_chars (h : field.type ≠ .chars) : copyLen field value = field.len.toNat :=
  if_neg fun hand => h hand.1

/-- A column gets a byte at least. -/
theorem copyLen_pos (h : 0 < field.len) : 0 < copyLen field value := by
  unfold copyLen
  split <;> omega

/-- A byte outside of all columns keeps its content. -/
theorem copyColumns_of_outside
    (h : ∀ f ∈ fields, i < f.offset.toNat ∨ f.offset.toNat + f.len.toNat ≤ i) :
    copyColumns beyond fields values record i = record i := by
  induction fields generalizing values beyond record with
  | nil => cases values <;> rfl
  | cons field fields ih =>
    cases values with
    | nil => rfl
    | cons value values =>
      obtain ⟨hfield, hfields⟩ := List.forall_mem_cons.mp h
      have hle : copyLen field value ≤ field.len.toNat := copyLen_le
      rw [copyColumns, ih hfields, memcpy, if_neg (by omega)]

/-- **The bytes of a column.** They are those of its value, as far as it is copied. -/
theorem copyColumns_get (hplaced : fields.Pairwise fun f g => f.offset + f.len ≤ g.offset)
    (hbounds : ∀ f ∈ fields, 0 ≤ f.offset ∧ 0 < f.len) (hfield : fields[j]? = some field)
    (hvalue : values[j]? = some value) (hk : k < copyLen field value) :
    copyColumns beyond fields values record (field.offset.toNat + k) =
      value.memory (beyond j) k := by
  induction fields generalizing values beyond record j with
  | nil => cases hfield
  | cons f fields ih =>
    cases values with
    | nil => cases hvalue
    | cons v values =>
      obtain ⟨hbefore, hplaced⟩ := List.pairwise_cons.mp hplaced
      obtain ⟨hf, hbounds⟩ := List.forall_mem_cons.mp hbounds
      rw [copyColumns]
      cases j with
      | succ j => exact ih hplaced hbounds hfield hvalue
      | zero =>
        obtain rfl := Option.some.inj hfield
        obtain rfl := Option.some.inj hvalue
        have hle : copyLen f v ≤ f.len.toNat := copyLen_le
        rw [copyColumns_of_outside, memcpy, if_pos (by omega), Nat.add_sub_cancel_left]
        intro g hg
        have := hbefore g hg
        have := hbounds g hg
        omega

/-! ## Reading a value -/

theorem readInt_intBytes (v : BitVec 32) (beyond : ℕ → Byte) :
    readInt (fun k => (intBytes v).getD k (beyond k)) = v := by
  simp only [readInt, intBytes, List.getD_cons_zero, List.getD_cons_succ]
  ext i hi
  simp only [BitVec.getElem_append, BitVec.getElem_extractLsb']
  grind

theorem intBytes_readInt (data : ℕ → Byte) :
    intBytes (readInt data) = [data 0, data 1, data 2, data 3] := by
  unfold intBytes readInt
  simp only [List.cons.injEq, and_true]
  refine ⟨?_, ?_, ?_, ?_⟩
  all_goals
    ext i hi
    simp only [BitVec.getElem_extractLsb', BitVec.getLsbD_append]
    grind

/-- An `int` that is read has these four bytes. -/
theorem getD_of_readInt {data : ℕ → Byte} {v : BitVec 32} (h : readInt data = v) (hk : k < 4)
    (b : Byte) : data k = (intBytes v).getD k b := by
  rw [← h, intBytes_readInt]
  obtain rfl | rfl | rfl | rfl : k = 0 ∨ k = 1 ∨ k = 2 ∨ k = 3 := by omega
  all_goals rfl

/-- Four bytes of an `int`. -/
theorem readInt_of_bytes {data beyond : ℕ → Byte} {v : BitVec 32}
    (h : ∀ k < 4, data k = (intBytes v).getD k (beyond k)) : readInt data = v := by
  rw [readInt, h 0 (by omega), h 1 (by omega), h 2 (by omega), h 3 (by omega)]
  exact readInt_intBytes v beyond

/-- A string that is followed by a zero, unless it fills its column. -/
theorem strnlen_eq {data : ℕ → Byte} {s : List Byte} {len : ℕ} (hle : s.length ≤ len)
    (hzero : 0 ∉ s) (hdata : ∀ k, (hk : k < s.length) → data k = s[k])
    (hend : s.length < len → data s.length = 0) : strnlen data len = s := by
  obtain ⟨n, rfl⟩ := Nat.exists_eq_add_of_le hle
  have hs : (List.range s.length).map data = s := by
    apply List.ext_getElem
    · simp
    · intro k hk hk'
      simpa using hdata k hk'
  have hrest : (((List.range n).map (s.length + ·)).map data).takeWhile (fun c => c ≠ 0) = [] := by
    cases n with
    | zero => rfl
    | succ n =>
      rw [List.range_succ_eq_map, List.map_cons, List.map_cons, List.takeWhile_cons_of_neg]
      simpa using hend (by omega)
  have hall : ∀ c ∈ s, decide (c ≠ 0) = true := by
    intro c hc
    exact decide_eq_true fun heq => hzero (heq ▸ hc)
  rw [strnlen, List.range_add, List.map_append, hs, List.takeWhile_append_of_pos hall, hrest,
    List.append_nil]

/-- The value can be read back from a column: a column of numbers has four bytes, and a string has
no zero and fits. -/
def Fits (field : FieldMeta) (value : Value) : Prop :=
  (field.type ≠ .chars → field.len = 4) ∧
    ∀ s, value = .chars s → 0 ∉ s ∧ s.length ≤ field.len.toNat

/-- **Reading a column** whose bytes are those of a value that fits. -/
theorem cellOf_of_bytes (beyond : ℕ → Byte) (hfits : Fits field value)
    (htype : field.type = value.type) (hbool : field.type ≠ .booleans)
    (hbytes : ∀ k < copyLen field value,
      record (field.offset.toNat + k) = value.memory beyond k) :
    cellOf record field = value.toCell := by
  unfold cellOf
  cases value with
  | undefined =>
    rw [htype]
    rfl
  | booleans b => exact absurd htype hbool
  | chars s =>
    obtain ⟨hzero, hle⟩ := hfits.2 s rfl
    have hcopy : copyLen field (.chars s) = min (s.length + 1) field.len.toNat := by
      simp only [copyLen, htype, Value.type, Value.stringValue, true_and]
      split <;> omega
    rw [htype]
    refine congrArg DataCell.chars (strnlen_eq hle hzero (fun k hk => ?_) fun hlt => ?_)
    · rw [hbytes k (by omega), Value.memory, Value.data, List.getD_eq_getElem _ _ (by simp; omega),
        List.getElem_append_left hk]
    · rw [hbytes s.length (by omega), Value.memory, Value.data,
        List.getD_eq_getElem _ _ (by simp)]
      simp
  | ints v =>
    have hchars : field.type ≠ .chars := by simp [htype, Value.type]
    have hcopy : copyLen field (.ints v) = 4 := by
      rw [copyLen_of_ne_chars hchars, hfits.1 hchars]
      rfl
    rw [htype]
    exact congrArg DataCell.ints (readInt_of_bytes fun k hk => hbytes k (by omega))
  | floats v =>
    have hchars : field.type ≠ .chars := by simp [htype, Value.type]
    have hcopy : copyLen field (.floats v) = 4 := by
      rw [copyLen_of_ne_chars hchars, hfits.1 hchars]
      rfl
    rw [htype]
    exact congrArg DataCell.floats (readInt_of_bytes fun k hk => hbytes k (by omega))

/-! ## Columns that are too short -/

/-- The columns lie one behind the other without gaps. -/
structure Placed (fields : List FieldMeta) : Prop where
  pairwise : fields.Pairwise fun f g => f.offset + f.len ≤ g.offset
  bounds : ∀ f ∈ fields, 0 ≤ f.offset ∧ 0 < f.len
  next : ∀ {j f g}, fields[j]? = some f → fields[j + 1]? = some g → g.offset = f.offset + f.len

theorem placeFields_placed {attributes : List AttrInfo} {off : Int} (hoff : 0 ≤ off)
    (h : ∀ a ∈ attributes, 0 < a.length) : Placed (placeFields off attributes) where
  pairwise := placeFields_pairwise h
  bounds f hf := by
    have := placeFields_bounds h hf
    omega
  next := by
    induction attributes generalizing off with
    | nil => exact fun hf => nomatch hf
    | cons a attributes ih =>
      obtain ⟨ha, h⟩ := List.forall_mem_cons.mp h
      intro j f g hf hg
      cases j with
      | succ j => exact ih (by omega) h hf hg
      | zero =>
        obtain rfl := Option.some.inj hf
        cases attributes with
        | nil => cases hg
        | cons b attributes =>
          obtain rfl := Option.some.inj hg
          rfl

/-- A value with this first byte. -/
def ofFirstByte (c : Byte) : AttrType → Value
  | .chars => .chars [c]
  | .ints => .ints (c.setWidth 32)
  | .floats => .floats (c.setWidth 32)
  | .booleans => .booleans (c ≠ 0)
  | .undefined => .undefined

theorem type_ofFirstByte (c : Byte) (type : AttrType) : (ofFirstByte c type).type = type := by
  cases type <;> rfl

theorem memory_ofFirstByte (c : Byte) {type : AttrType} (h : type ≠ .booleans)
    (h' : type ≠ .undefined) (beyond : ℕ → Byte) : (ofFirstByte c type).memory beyond 0 = c := by
  have hint : (c.setWidth 32).extractLsb' 0 8 = c := by
    ext i hi
    simp
    grind
  cases type with
  | chars => rfl
  | ints => exact hint
  | floats => exact hint
  | booleans => exact absurd rfl h
  | undefined => exact absurd rfl h'

/-- The byte behind a column is that of the next column, or what the memory has held before. -/
theorem copyColumns_behind (hplaced : Placed fields)
    (htypes : ∀ f ∈ fields, f.type ≠ .booleans ∧ f.type ≠ .undefined) (c : Byte)
    (hlen : values.length = fields.length) (hfield : fields[j]? = some field) :
    copyColumns beyond fields
      (values.set (j + 1) (ofFirstByte c (fields[j + 1]?.elim .chars FieldMeta.type))) (fun _ => c)
      (field.offset.toNat + field.len.toNat) = c := by
  have hmem := List.mem_of_getElem? hfield
  have hbound := hplaced.bounds field hmem
  cases hnext : fields[j + 1]? with
  | none =>
    have hlast := List.getElem?_eq_none_iff.mp hnext
    refine copyColumns_of_outside fun f hf => Or.inr ?_
    obtain ⟨i, hi, rfl⟩ := List.mem_iff_getElem.mp hf
    obtain ⟨hj, rfl⟩ := List.getElem?_eq_some_iff.mp hfield
    have hboundi := hplaced.bounds _ hf
    rcases Nat.lt_or_eq_of_le (show i ≤ j by omega) with hlt | rfl
    · have := List.pairwise_iff_getElem.mp hplaced.pairwise i j hi hj hlt
      omega
    · exact le_rfl
  | some g =>
    have hg := List.mem_of_getElem? hnext
    have hoffset := hplaced.next hfield hnext
    have hlt := (List.getElem?_eq_some_iff.mp hnext).1
    have hvalue : (values.set (j + 1) (ofFirstByte c g.type))[j + 1]? =
        some (ofFirstByte c g.type) := List.getElem?_set_self (by omega)
    have hget : copyColumns beyond fields (values.set (j + 1) (ofFirstByte c g.type)) (fun _ => c)
        (g.offset.toNat + 0) = _ := copyColumns_get hplaced.pairwise hplaced.bounds hnext hvalue
          (copyLen_pos (hplaced.bounds g hg).2)
    rw [memory_ofFirstByte c (htypes g hg).1 (htypes g hg).2] at hget
    have hplace : field.offset.toNat + field.len.toNat = g.offset.toNat + 0 := by omega
    rw [hplace]
    exact hget

/-- Another value of the same type in the place of one. -/
theorem accepts_set (h : Accepts m values) {i : ℕ} {value : Value}
    (htype : ∀ f, (m.fields.drop TableMeta.sysFieldNum)[i]? = some f → f.type = value.type) :
    Accepts m (values.set i value) := by
  obtain ⟨hnum, htypes, hsize⟩ := h
  refine ⟨by simpa using hnum, ?_, hsize⟩
  intro p hp
  obtain ⟨k, hk⟩ := List.mem_iff_getElem?.mp hp
  obtain ⟨hf, hv⟩ := List.getElem?_zip_eq_some.mp hk
  by_cases hik : i = k
  · subst hik
    rw [List.getElem?_set_self (by simpa using (List.getElem?_eq_some_iff.mp hv).1)] at hv
    rw [← Option.some.inj hv]
    exact htype _ hf
  · rw [List.getElem?_set_ne hik] at hv
    exact htypes p (List.mem_iff_getElem?.mpr ⟨k, List.getElem?_zip_eq_some.mpr ⟨hf, hv⟩⟩)

/-- The value of a column of numbers. -/
theorem number_cases (htype : field.type = value.type) (hchars : field.type ≠ .chars)
    (hother : field.type ≠ .booleans ∧ field.type ≠ .undefined) :
    ∃ v, value.data = intBytes v ∧ ∀ record, cellOf record field = value.toCell →
      readInt (fun k => record (field.offset.toNat + k)) = v := by
  unfold cellOf
  rw [htype] at hchars hother ⊢
  cases value with
  | undefined => exact absurd rfl hother.2
  | chars s => exact absurd rfl hchars
  | booleans b => exact absurd rfl hother.1
  | ints v => exact ⟨v, rfl, fun record heq => DataCell.ints.inj heq⟩
  | floats v => exact ⟨v, rfl, fun record heq => DataCell.floats.inj heq⟩

/-- No more bytes are copied than a value has that fits. -/
theorem copyLen_le_data (hfits : Fits field value) (htype : field.type = value.type)
    (hother : field.type ≠ .booleans ∧ field.type ≠ .undefined) :
    copyLen field value ≤ value.data.length := by
  by_cases hchars : field.type = .chars
  · have hmin : copyLen field value ≤ value.stringValue.length + 1 := by
      unfold copyLen
      split_ifs with hlt
      · exact le_rfl
      · push Not at hlt
        cases value with
        | chars s =>
          have := hlt hchars
          have := (hfits.2 s rfl).2
          simp only [Value.stringValue] at *
          omega
        | _ => rw [hchars] at htype; cases htype
    refine hmin.trans ?_
    rw [hchars] at htype
    cases value <;> cases htype
    simp [Value.data, Value.stringValue]
  · obtain ⟨v, hdata, -⟩ := number_cases htype hchars hother
    rw [hdata, copyLen_of_ne_chars hchars, hfits.1 hchars]
    rfl

/-! ## The theorem -/

/-- A column of `CREATE TABLE`. Source: `yacc_sql.y`, `attr_def` -/
structure AttrInfo.OfGrammar (a : AttrInfo) : Prop where
  fromNumber : a.FromNumber
  type : a.type = .ints ∨ a.type = .chars ∨ a.type = .floats

variable {attributes : List AttrInfo} {name : String}

/-- The columns of a table whose records can be made. -/
theorem columns_of_accepts (h : TableMeta.init name attributes = .ok m)
    (hgrammar : ∀ a ∈ attributes, a.OfGrammar) (hsize : 0 ≤ m.recordSize) :
    ∃ fields, m.fields = sysFields ++ fields ∧ Placed fields ∧
      ∀ f ∈ fields, f.type ≠ .booleans ∧ f.type ≠ .undefined := by
  obtain ⟨-, -, fields, size, hfields, rfl⟩ := TableMeta.init_eq_ok h
  obtain ⟨rfl, hall, -⟩ := TableMeta.initFields_spec
    (fun a ha => (hgrammar a ha).fromNumber) (by decide) (by decide) hfields
  refine ⟨_, rfl, placeFields_placed (by decide) fun a ha => (hall a ha).2.2.1, ?_⟩
  intro f hf
  obtain ⟨a, ha, htype⟩ := placeFields_type hf
  rw [htype]
  rcases (hgrammar a ha).type with heq | heq | heq <;> rw [heq] <;> decide

/-- **Rows are read back as they were written** if and only if every column of numbers has four
bytes and every string fits in its column and has no zero. -/
theorem reads_back_iff (h : TableMeta.init name attributes = .ok m)
    (hgrammar : ∀ a ∈ attributes, a.OfGrammar) (haccepts : Accepts m values) :
    ReadsBack m values ↔
      ∀ p ∈ (m.fields.drop TableMeta.sysFieldNum).zip values, Fits p.1 p.2 := by
  obtain ⟨fields, hfields, hplaced, htypes⟩ := columns_of_accepts h hgrammar haccepts.2.2
  have hdrop : m.fields.drop TableMeta.sysFieldNum = fields := by
    rw [hfields]
    exact List.drop_left
  have hcol : ∀ {i field}, fields[i]? = some field → ∀ record,
      (RowTuple.mk record m.fields m.fields).cellAt (i + TableMeta.sysFieldNum : ℕ) =
        .ok (cellOf record field) := by
    intro i field hfield record
    obtain ⟨hi, rfl⟩ := List.getElem?_eq_some_iff.mp hfield
    have hlt : i + TableMeta.sysFieldNum < m.fields.length := by
      rw [hfields]
      simp [TableMeta.sysFieldNum]
      omega
    rw [RowTuple.cellAt_of_lt (t := ⟨record, m.fields, m.fields⟩) hlt]
    simp only [hfields]
    rfl
  rw [hdrop]
  have hlen : values.length = fields.length := by
    have := haccepts.1
    rw [hfields, List.length_append] at this
    exact Nat.add_left_cancel ((Nat.add_comm _ _).trans this)
  have htype : ∀ p ∈ fields.zip values, p.1.type = p.2.type := hdrop ▸ haccepts.2.1
  constructor
  · rintro ⟨hstrings, hcolumns, hcopies⟩ ⟨field, value⟩ hp
    rw [hdrop] at hstrings hcopies
    refine ⟨fun hchars => ?_, hstrings _ hp⟩
    obtain ⟨j, hj⟩ := List.mem_iff_getElem?.mp hp
    obtain ⟨hfield, hvalue⟩ := List.getElem?_zip_eq_some.mp hj
    obtain ⟨v, hdata, hread⟩ :=
      number_cases (htype _ hp) hchars (htypes field (List.mem_of_getElem? hfield))
    have hle := hcopies _ hp
    rw [copyLen_of_ne_chars hchars, hdata] at hle
    have hle : field.len.toNat ≤ 4 := hle
    have hpos := (hplaced.bounds field (List.mem_of_getElem? hfield)).2
    show field.len = 4
    by_contra hne
    -- the fourth byte, or an earlier one, lies behind the column
    obtain ⟨other, hother⟩ : ∃ other, other = fun c : Byte =>
        ofFirstByte c (fields[j + 1]?.elim .chars FieldMeta.type) := ⟨_, rfl⟩
    obtain ⟨c, hc⟩ : ∃ c : Byte, c = (intBytes v).getD field.len.toNat 0 + 1 := ⟨_, rfl⟩
    have hset : Accepts m (values.set (j + 1) (other c)) := accepts_set haccepts fun f hf => by
      rw [hdrop] at hf
      simp only [hother, type_ofFirstByte, hf]
      rfl
    have hmake : makeRecord m (fun _ => c) (fun _ _ => 0) (values.set (j + 1) (other c)) =
        some (.ok (copyColumns (fun _ _ => 0) (m.fields.drop TableMeta.sysFieldNum)
          (values.set (j + 1) (other c)) fun _ => c)) := makeRecord_eq_ok_iff.mpr ⟨hset, rfl⟩
    have hcell := hcolumns j value hvalue _ _ _ _ (by rwa [List.getElem?_set_ne (by omega)]) hmake
    rw [hcol hfield, hdrop] at hcell
    have hbyte := getD_of_readInt (hread _ (Except.ok.inj hcell))
      (show field.len.toNat < 4 by omega) 0
    rw [hother, copyColumns_behind hplaced htypes c hlen hfield, hc] at hbyte
    simp at hbyte
  · intro hall
    refine ⟨fun p hp s hs => ?_, fun i value hvalue values' heap beyond record hvalue' hmake => ?_,
      fun p hp => ?_⟩
    · rw [hdrop] at hp
      exact (hall p hp).2 s hs
    · have hi : i < fields.length := hlen ▸ (List.getElem?_eq_some_iff.mp hvalue).1
      have hfield := List.getElem?_eq_getElem hi
      have hp : (fields[i], value) ∈ fields.zip values :=
        List.mem_iff_getElem?.mpr ⟨i, List.getElem?_zip_eq_some.mpr ⟨hfield, hvalue⟩⟩
      obtain ⟨-, rfl⟩ := makeRecord_eq_ok_iff.mp hmake
      rw [hcol hfield, hdrop]
      refine congrArg Except.ok (cellOf_of_bytes (beyond i) (hall _ hp) (htype _ hp)
        (htypes _ (List.getElem_mem hi)).1 fun k hk => ?_)
      exact copyColumns_get hplaced.pairwise hplaced.bounds hfield hvalue' hk
    · rw [hdrop] at hp
      exact copyLen_le_data (hall p hp) (htype p hp) (htypes _ (List.of_mem_zip hp).1)

/-- A column of numbers and a column of three characters. -/
def pairMeta : TableMeta :=
  ⟨"t", [trxField, ⟨"a", .ints, 4, 4, true⟩, ⟨"b", .chars, 8, 3, true⟩], [], 11⟩

/-- The row `(7, 'x')`. -/
theorem pair_reads_back : ReadsBack pairMeta [.ints 7, .chars [120]] := by
  have hgrammar : ∀ a ∈ [AttrInfo.mk .ints "a" 4, AttrInfo.mk .chars "b" 3], a.OfGrammar := by
    intro a ha
    rcases List.mem_pair.mp ha with rfl | rfl
    · exact ⟨AttrInfo.fromNumber_of_le (by decide), by decide⟩
    · exact ⟨AttrInfo.fromNumber_of_le (by decide), by decide⟩
  have hinit : TableMeta.init "t" [⟨.ints, "a", 4⟩, ⟨.chars, "b", 3⟩] = .ok pairMeta := by decide
  have haccepts : Accepts pairMeta [.ints 7, .chars [120]] := by
    unfold Accepts
    decide
  refine (reads_back_iff hinit hgrammar haccepts).mpr fun p hp => ?_
  rcases List.mem_pair.mp (show p ∈ [_, _] from hp) with rfl | rfl
  · exact ⟨fun _ => rfl, fun s hs => nomatch hs⟩
  · refine ⟨fun hne => absurd rfl hne, ?_⟩
    rintro s hs
    cases hs
    decide

/-- A column `INT(8)`: eight bytes are copied of a value of four. -/
theorem long_int_copies : ∃ m, TableMeta.init "t" [⟨.ints, "a", 8⟩] = .ok m ∧
    Accepts m [.ints 1] ∧ ¬ ReadsBack m [.ints 1] := by
  refine ⟨⟨"t", [trxField, ⟨"a", .ints, 4, 8, true⟩], [], 12⟩, by decide, ?_, fun h => ?_⟩
  · unfold Accepts
    decide
  · have hle := h.copies (⟨"a", .ints, 4, 8, true⟩, .ints 1) (by decide)
    exact absurd hle (by decide)

end Miniob.Storage.Meta
