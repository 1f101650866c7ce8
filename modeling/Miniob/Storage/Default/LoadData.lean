import Miniob.Common.Strings
import Miniob.Storage.Meta.MakeRecord

/-!
# Loading rows from a file

`LOAD DATA` cuts each line of a file at the delimiters, converts the parts to the types of the
columns and gives the row to the table. The parts are numbered after the empty ones have been left
out, and parts behind the last column are ignored.

* `insertRecordFromFile`, `loadLine`, `loadLines`: one line, and the lines of a file.
* `InPlace`: a line either gives a row whose columns come from its fields, or an error.
* `inPlace_iff`: which lines do.

A table is anything that rows can be given to. What a stream reads as a `float` is not modelled, and
neither is the report that the client gets. A read outside of a string is `none`.
-/

namespace Miniob.Storage.Default

open Miniob.Common Miniob.Storage.Meta

/-- A `std::string`. -/
abbrev Text := List (BitVec 8)

/-! ## Fields -/

/-- Source: `parse_defs.h`, `enum AttrType` -/
def attrTypeNumber : AttrType → ℕ
  | .undefined => 0
  | .chars => 1
  | .ints => 2
  | .floats => 3
  | .booleans => 4

/-- The `int` that a stream reads from a text without white space before it, if it does not fail and
is at its end. -/
def extractInt (text : Text) : Option (BitVec 32) :=
  let negative := text.head? = some 0x2D
  let digits := if negative ∨ text.head? = some 0x2B then text.tail else text
  let number : Int := digits.foldl (fun n c => 10 * n + (c.toNat - 48)) 0
  let value := if negative then -number else number
  if digits ≠ [] ∧ (∀ c ∈ digits, 48 ≤ c.toNat ∧ c.toNat ≤ 57) ∧
      -2147483648 ≤ value ∧ value ≤ 2147483647 then
    some (BitVec.ofInt 32 value)
  else none

/-- A table that rows can be given to, with its columns without those of the system. -/
structure LoadTable (T : Type) where
  /-- The types of the columns. -/
  columns : List AttrType
  columns_ne : columns ≠ []
  /-- The `float` that a stream reads from a text, if it does not fail and is at its end. -/
  extractFloat : Text → Option (BitVec 32)
  /-- What `Table::insert_record` does with the values. -/
  insertRecord : List Value → T → RC × T

variable {T : Type} (table : LoadTable T)

namespace LoadTable

/-- The text that is converted. Source: `default_storage_stage.cpp`, `insert_record_from_file` -/
def columnText (type : AttrType) (fileValue : Text) : Option Text :=
  if type = .chars then some fileValue else strip fileValue

/-- The value of a text, if it has one.
Source: `default_storage_stage.cpp`, `insert_record_from_file` -/
def fieldValue : AttrType → Text → Option Value
  | .ints, text => (extractInt text).map .ints
  | .floats, text => (table.extractFloat text).map .floats
  | .chars, text => some (.chars (text.takeWhile fun c => c ≠ 0))
  | _, _ => none

/-- Source: `default_storage_stage.cpp`, `insert_record_from_file` -/
def fieldError (i : ℕ) : AttrType → Text → Text
  | .ints, text => textBytes "need an integer but got '" ++ text ++
      textBytes "' (field index:" ++ textBytes (toString i) ++ textBytes ")"
  | .floats, text => textBytes "need a float number but got '" ++ text ++
      textBytes "'(field index:" ++ textBytes (toString i) ++ textBytes ")"
  | type, _ => textBytes "Unsupported field type to loading: " ++
      textBytes (toString (attrTypeNumber type))

/-- What is left by the loop over the columns. -/
structure Converted where
  /-- `rc` -/
  rc : RC
  /-- `record_values` -/
  recordValues : List Value
  /-- `errmsg` -/
  errmsg : Text

/-- The loop over the columns, from column `i` on. It ends at the first text without a value.
Source: `default_storage_stage.cpp`, `insert_record_from_file` -/
def convertFields : ℕ → List AttrType → List Text → List Value → Option Converted
  | i, type :: columns, fileValue :: fileValues, value :: recordValues => do
    let text ← columnText type fileValue
    match table.fieldValue type text with
    | none => return ⟨.schemaFieldTypeMismatch, value :: recordValues, fieldError i type text⟩
    | some value' =>
      let rest ← convertFields (i + 1) columns fileValues recordValues
      return { rest with recordValues := value' :: rest.recordValues }
  | _, _, _, recordValues => some ⟨.success, recordValues, []⟩

/-- What is left by a line. -/
structure LineResult (T : Type) extends Converted where
  /-- The table. -/
  table : T

/-- Source: `default_storage_stage.cpp`, `insert_record_from_file` -/
def insertRecordFromFile (fileValues : List Text) (recordValues : List Value) (t : T) :
    Option (LineResult T) :=
  if fileValues.length < recordValues.length then
    some ⟨⟨.schemaFieldMissing, recordValues, []⟩, t⟩
  else do
    let converted ← table.convertFields 0 table.columns fileValues recordValues
    if converted.rc = .success then
      let (rc, t') := table.insertRecord converted.recordValues t
      let errmsg := if rc ≠ .success then textBytes "insert failed." else []
      return ⟨⟨rc, converted.recordValues, converted.errmsg ++ errmsg⟩, t'⟩
    else return ⟨converted, t⟩

/-- The delimiter of the fields. -/
def delim : BitVec 8 := 0x7C

/-- One line that is not blank.
Source: `default_storage_stage.cpp`, `DefaultStorageStage::load_data` -/
def loadLine (line : Text) (recordValues : List Value) (t : T) : Option (LineResult T) := do
  let fileValues ← splitString [delim] line
  table.insertRecordFromFile fileValues recordValues t

/-- The text before the first zero is white space. Source: `string.cpp`, `is_blank` -/
def isBlankLine (line : Text) : Bool := (line.takeWhile fun c => c ≠ 0).all isspaceByte

/-- The lines of a file, up to the first one with an error. `record_values` is that of all lines.
Source: `default_storage_stage.cpp`, `DefaultStorageStage::load_data` -/
def loadLines : List Text → List Value → T → Option (RC × T)
  | [], _, t => some (.success, t)
  | line :: lines, recordValues, t =>
    if isBlankLine line then loadLines lines recordValues t
    else do
      let r ← table.loadLine line recordValues t
      if r.rc ≠ .success then return (r.rc, r.table)
      else loadLines lines r.recordValues r.table

/-! ## What a line should do -/

/-- The value is that of the text in a column of this type. -/
def FromField (type : AttrType) (f : Text) (value : Value) : Prop :=
  (columnText type f).bind (table.fieldValue type) = some value

/-- A row whose `i`-th column comes from the `i`-th text, for every `i`. -/
structure IsRow (columns : List AttrType) (texts : List Text) (values : List Value) : Prop where
  texts_length : texts.length = columns.length
  values_length : values.length = columns.length
  column : ∀ (i : ℕ) (type : AttrType) (f : Text) (value : Value), columns[i]? = some type →
    texts[i]? = some f → values[i]? = some value → table.FromField type f value

/-- Texts without delimiters and line breaks, not all blank, as the fields of a line. -/
structure Fields where
  /-- The texts. -/
  texts : List Text
  texts_ne : texts ≠ []
  delim_notMem : ∀ f ∈ texts, delim ∉ f
  newline_notMem : ∀ f ∈ texts, 0x0A ∉ f
  not_blank : ∃ f ∈ texts, ∃ c ∈ f, ¬ isspaceByte c

/-- The line of a file. -/
def Fields.line (fields : Fields) : Text := List.intercalate [delim] fields.texts

/-- The fields of the line are found, and the line gives the table a row whose columns come from
them, and returns what the table returns, or it leaves the table and returns an error. -/
def InPlace (fields : Fields) (t : T) : Prop :=
  splitString [delim] fields.line = some fields.texts ∧
    ∀ recordValues : List Value, recordValues.length = table.columns.length →
      ∃ r, table.loadLine fields.line recordValues t = some r ∧
        ((∃ values, table.IsRow table.columns fields.texts values ∧
          table.insertRecord values t = (r.rc, r.table)) ∨ r.rc ≠ .success ∧ r.table = t)

/-! ## Which lines do it -/

/-- A text of blanks for a column that is not of strings is reached: the texts before it have
values. -/
def BlankReached : List AttrType → List Text → Prop
  | type :: columns, f :: texts =>
    (type ≠ .chars ∧ ∀ c ∈ f, isspaceByte c) ∨
      (∃ value, table.FromField type f value) ∧ BlankReached columns texts
  | _, _ => False

/-- The first texts have no row, or one that the table does not take. -/
def Refused (texts : List Text) (t : T) : Prop :=
  ∀ values, table.IsRow table.columns (texts.take table.columns.length) values →
    ∃ rc, rc ≠ .success ∧ table.insertRecord values t = (rc, t)

/-- No field is empty, and none before the last is too long; and there are fewer fields than
columns, or no blank text is reached and there are no more fields than columns or they are
refused. -/
def Loadable (fields : Fields) (t : T) : Prop :=
  (∀ f ∈ fields.texts, f ≠ []) ∧ (∀ f ∈ fields.texts.dropLast, f.length < 2 ^ 31) ∧
    (fields.texts.length < table.columns.length ∨
      ¬ table.BlankReached table.columns fields.texts ∧
        (fields.texts.length = table.columns.length ∨ table.Refused fields.texts t))

/-! ## Converting -/

variable {table} {columns : List AttrType} {texts : List Text} {recordValues values : List Value}
  {type : AttrType} {f : Text} {value : Value} {t : T}

theorem isRow_nil : table.IsRow [] [] [] :=
  ⟨rfl, rfl, fun _ _ _ _ h => nomatch h⟩

/-- A row column by column. -/
theorem isRow_cons : table.IsRow (type :: columns) (f :: texts) (value :: values) ↔
    table.FromField type f value ∧ table.IsRow columns texts values := by
  constructor
  · rintro ⟨htexts, hvalues, hcolumn⟩
    exact ⟨hcolumn 0 _ _ _ rfl rfl rfl, by simpa using htexts, by simpa using hvalues,
      fun i type f value ht hf hv => hcolumn (i + 1) type f value ht hf hv⟩
  · rintro ⟨hfrom, htexts, hvalues, hcolumn⟩
    refine ⟨by simp [htexts], by simp [hvalues], fun i type' f' value' ht hf hv => ?_⟩
    cases i with
    | zero =>
      obtain rfl := Option.some.inj ht
      obtain rfl := Option.some.inj hf
      obtain rfl := Option.some.inj hv
      exact hfrom
    | succ i => exact hcolumn i type' f' value' ht hf hv

/-- The text that is converted is there unless it is blank. -/
theorem columnText_eq_none_iff :
    columnText type f = none ↔ type ≠ .chars ∧ ∀ c ∈ f, isspaceByte c := by
  unfold columnText
  split_ifs with htype
  · exact iff_of_false (by simp) fun h => h.1 htype
  · rw [strip_eq_none_iff, and_iff_right htype]

/-- A blank text is reached in a column behind one that has a value. -/
theorem blankReached_cons_iff (h : table.FromField type f value) :
    table.BlankReached (type :: columns) (f :: texts) ↔ table.BlankReached columns texts := by
  constructor
  · rintro (hblank | ⟨-, hrest⟩)
    · rw [FromField, columnText_eq_none_iff.mpr hblank] at h
      cases h
    · exact hrest
  · exact fun hrest => .inr ⟨⟨value, h⟩, hrest⟩

/-- A row begins with the value of its first text. -/
theorem isRow_cons_iff (h : table.FromField type f value) :
    table.IsRow (type :: columns) (f :: texts) values ↔
      ∃ rest, values = value :: rest ∧ table.IsRow columns texts rest := by
  constructor
  · intro hrow
    obtain ⟨value', rest, rfl⟩ : ∃ v vs, values = v :: vs :=
      List.exists_cons_of_ne_nil fun hnil => by simpa [hnil] using hrow.values_length
    obtain ⟨hfrom, hrest⟩ := isRow_cons.mp hrow
    obtain rfl := Option.some.inj (h.symm.trans hfrom)
    exact ⟨rest, rfl, hrest⟩
  · rintro ⟨rest, rfl, hrow⟩
    exact isRow_cons.mpr ⟨h, hrow⟩

/-- What the loop over the columns does: a blank text is reached, or the first texts have a row, or
they have none. -/
inductive Converts (table : LoadTable T) (columns : List AttrType) (texts : List Text) :
    Option Converted → Prop
  | blank : table.BlankReached columns texts → Converts table columns texts none
  | row (values : List Value) (hblank : ¬ table.BlankReached columns texts)
      (hrow : table.IsRow columns (texts.take columns.length) values) :
      Converts table columns texts (some ⟨.success, values, []⟩)
  | mismatch (recordValues : List Value) (errmsg : Text)
      (hblank : ¬ table.BlankReached columns texts)
      (hrow : ∀ values, ¬ table.IsRow columns (texts.take columns.length) values) :
      Converts table columns texts (some ⟨.schemaFieldTypeMismatch, recordValues, errmsg⟩)

/-- **The loop over the columns.** By induction on them. -/
theorem converts_convertFields (i : ℕ) (hvalues : recordValues.length = columns.length)
    (hle : columns.length ≤ texts.length) :
    Converts table columns texts (table.convertFields i columns texts recordValues) := by
  induction columns generalizing i texts recordValues with
  | nil =>
    obtain rfl := List.length_eq_zero_iff.mp hvalues
    rw [convertFields]
    · exact .row [] (fun h => h) isRow_nil
    · exact fun _ _ _ _ _ _ h => nomatch h
  | cons type columns ih =>
    cases texts with
    | nil => exact absurd hle (by simp)
    | cons f texts =>
      obtain ⟨value, recordValues, rfl⟩ : ∃ v vs, recordValues = v :: vs :=
        List.exists_cons_of_ne_nil fun h => by simp [h] at hvalues
      rw [convertFields]
      cases htext : columnText type f with
      | none => exact .blank (.inl (columnText_eq_none_iff.mp htext))
      | some text =>
        have hblank : ¬ (type ≠ .chars ∧ ∀ c ∈ f, isspaceByte c) := fun h =>
          nomatch htext.symm.trans (columnText_eq_none_iff.mpr h)
        cases hvalue : table.fieldValue type text with
        | none =>
          have hnot : ∀ v, ¬ table.FromField type f v := fun v h => by
            rw [FromField, htext, Option.bind_some, hvalue] at h
            cases h
          simp only [Option.bind_eq_bind, Option.bind_some, hvalue]
          refine .mismatch _ _ (fun h => ?_) fun values hrow => ?_
          · obtain h | ⟨⟨v, h⟩, -⟩ := h
            · exact hblank h
            · exact hnot v h
          · rw [List.length_cons, List.take_succ_cons] at hrow
            obtain ⟨v, rest, rfl⟩ : ∃ v vs, values = v :: vs :=
              List.exists_cons_of_ne_nil fun hnil => by simpa [hnil] using hrow.values_length
            exact hnot v (isRow_cons.mp hrow).1
        | some value' =>
          have hfrom : table.FromField type f value' := by
            rw [FromField, htext, Option.bind_some, hvalue]
          have hrest : Converts table columns texts
              (table.convertFields (i + 1) columns texts recordValues) :=
            ih (i + 1) (by simpa using hvalues) (by simpa using hle)
          simp only [Option.bind_eq_bind, Option.bind_some, hvalue]
          revert hrest
          generalize table.convertFields (i + 1) columns texts recordValues = result
          intro hrest
          cases hrest with
          | blank h => exact .blank ((blankReached_cons_iff hfrom).mpr h)
          | row values h hrow =>
            refine .row (value' :: values) (mt (blankReached_cons_iff hfrom).mp h) ?_
            rw [List.length_cons, List.take_succ_cons]
            exact isRow_cons.mpr ⟨hfrom, hrow⟩
          | mismatch rest errmsg h hrow =>
            refine .mismatch _ _ (mt (blankReached_cons_iff hfrom).mp h) fun values hrow' => ?_
            rw [List.length_cons, List.take_succ_cons, isRow_cons_iff hfrom] at hrow'
            obtain ⟨values, -, hvalues⟩ := hrow'
            exact hrow values hvalues

/-! ## Lines -/

/-- The values of a row are determined by its texts. By induction on the columns. -/
theorem IsRow.unique {values' : List Value} (h : table.IsRow columns texts values)
    (h' : table.IsRow columns texts values') : values = values' := by
  induction columns generalizing texts values values' with
  | nil =>
    rw [List.length_eq_zero_iff.mp h.values_length, List.length_eq_zero_iff.mp h'.values_length]
  | cons type columns ih =>
    obtain ⟨f, texts, rfl⟩ : ∃ f fs, texts = f :: fs :=
      List.exists_cons_of_ne_nil fun hnil => by simpa [hnil] using h.texts_length
    obtain ⟨v, rest, rfl⟩ : ∃ v vs, values = v :: vs :=
      List.exists_cons_of_ne_nil fun hnil => by simpa [hnil] using h.values_length
    obtain ⟨hfrom, hrest⟩ := isRow_cons.mp h
    obtain ⟨rest', rfl, hrest'⟩ := (isRow_cons_iff hfrom).mp h'
    rw [ih hrest hrest']

variable (fields : Fields)

/-- Fields that are found again. -/
theorem splitString_line_iff : splitString [delim] fields.line = some fields.texts ↔
    (∀ f ∈ fields.texts, f ≠ []) ∧ ∀ f ∈ fields.texts.dropLast, f.length < 2 ^ 31 :=
  splitString_intercalate_iff fields.texts_ne fields.delim_notMem

/-- A line with too few fields. -/
theorem insertRecordFromFile_of_lt (hvalues : recordValues.length = table.columns.length)
    (h : texts.length < table.columns.length) (t : T) :
    table.insertRecordFromFile texts recordValues t =
      some ⟨⟨.schemaFieldMissing, recordValues, []⟩, t⟩ :=
  if_pos (by omega)

/-- **What a line does** that has enough fields. -/
theorem insertRecordFromFile_cases (hvalues : recordValues.length = table.columns.length)
    (hle : table.columns.length ≤ texts.length) (t : T) :
    (table.BlankReached table.columns texts ∧
      table.insertRecordFromFile texts recordValues t = none) ∨
    (¬ table.BlankReached table.columns texts ∧ ∃ r,
      table.insertRecordFromFile texts recordValues t = some r ∧
        ((∃ values, table.IsRow table.columns (texts.take table.columns.length) values ∧
          table.insertRecord values t = (r.rc, r.table)) ∨
        (∀ values, ¬ table.IsRow table.columns (texts.take table.columns.length) values) ∧
          r.rc ≠ .success ∧ r.table = t)) := by
  have hconverts : Converts table table.columns texts
      (table.convertFields 0 table.columns texts recordValues) :=
    converts_convertFields 0 hvalues hle
  unfold insertRecordFromFile
  rw [if_neg (by omega)]
  revert hconverts
  generalize table.convertFields 0 table.columns texts recordValues = result
  intro hconverts
  cases hconverts with
  | blank h => exact .inl ⟨h, rfl⟩
  | row values h hrow => exact .inr ⟨h, _, rfl, .inl ⟨values, hrow, rfl⟩⟩
  | mismatch rest errmsg h hrow => exact .inr ⟨h, _, rfl, .inr ⟨hrow, RC.noConfusion, rfl⟩⟩

/-- **LOAD DATA keeps columns in place**, for a table, its contents and the fields of a line, if and
only if no field is empty or too long, no blank text is reached in a column of numbers, and there
are no more fields than columns, unless the first ones are refused. -/
theorem inPlace_iff {T : Type} (table : LoadTable T) (fields : Fields) (t : T) :
    table.InPlace fields t ↔ table.Loadable fields t := by
  unfold InPlace Loadable
  rw [splitString_line_iff, and_assoc]
  refine and_congr_right fun hne => and_congr_right fun hshort => ?_
  have hsplit := (splitString_line_iff fields).mpr ⟨hne, hshort⟩
  have hload : ∀ recordValues, table.loadLine fields.line recordValues t =
      table.insertRecordFromFile fields.texts recordValues t := fun recordValues => by
    rw [loadLine, hsplit]
    rfl
  simp only [hload]
  by_cases hlt : fields.texts.length < table.columns.length
  · rw [or_iff_left_of_imp fun _ => hlt]
    refine iff_of_true (fun recordValues hvalues => ?_) hlt
    exact ⟨_, insertRecordFromFile_of_lt hvalues hlt t, .inr ⟨RC.noConfusion, rfl⟩⟩
  rw [or_iff_right hlt]
  have hle : table.columns.length ≤ fields.texts.length := by omega
  constructor
  · intro h
    obtain ⟨recordValues, hvalues⟩ : ∃ vs : List Value, vs.length = table.columns.length :=
      ⟨List.replicate _ .undefined, List.length_replicate⟩
    obtain ⟨r, hr, hcase⟩ := h recordValues hvalues
    obtain ⟨-, hnone⟩ | ⟨hblank, r', hr', hcase'⟩ := insertRecordFromFile_cases hvalues hle t
    · exact nomatch hr.symm.trans hnone
    refine ⟨hblank, ?_⟩
    obtain rfl := Option.some.inj (hr.symm.trans hr')
    obtain ⟨values, hrow, -⟩ | ⟨hrc, htable⟩ := hcase
    · exact .inl hrow.texts_length
    · refine .inr fun values hrow => ⟨r.rc, hrc, ?_⟩
      obtain ⟨values', hrow', hinsert⟩ | ⟨hnot, -⟩ := hcase'
      · rw [hrow.unique hrow', hinsert, htable]
      · exact absurd hrow (hnot values)
  · rintro ⟨hblank, hcount⟩ recordValues hvalues
    obtain ⟨h, -⟩ | ⟨-, r, hr, hcase⟩ := insertRecordFromFile_cases hvalues hle t
    · exact absurd h hblank
    refine ⟨r, hr, ?_⟩
    obtain ⟨values, hrow, hinsert⟩ | ⟨-, hrc, htable⟩ := hcase
    · obtain heq | hrefused := hcount
      · rw [List.take_of_length_le heq.le] at hrow
        exact .inl ⟨values, hrow, hinsert⟩
      · obtain ⟨rc, hrc, hrefuse⟩ := hrefused values hrow
        obtain ⟨rfl, htable⟩ := Prod.mk.inj (hrefuse.symm.trans hinsert)
        exact .inr ⟨hrc, htable.symm⟩
    · exact .inr ⟨hrc, htable⟩

/-! ## An empty field -/

/-- A table of two numbers, as the rows that it has been given. -/
def pairsTable : LoadTable (List (List Value)) where
  columns := [.ints, .ints]
  columns_ne := List.cons_ne_nil _ _
  extractFloat _ := none
  insertRecord values rows := (.success, rows ++ [values])

/-- `1||2` -/
def emptyField : Fields where
  texts := [textBytes "1", [], textBytes "2"]
  texts_ne := List.cons_ne_nil _ _
  delim_notMem := by decide
  newline_notMem := by decide
  not_blank := ⟨textBytes "1", List.mem_cons_self, 0x31, by decide, by decide⟩

/-- The third field is put into the second column, and the line is not rejected. -/
theorem emptyField_not_inPlace :
    pairsTable.loadLine emptyField.line [.undefined, .undefined] [] =
      some ⟨⟨.success, [.ints 1, .ints 2], []⟩, [[.ints 1, .ints 2]]⟩ ∧
    ¬ pairsTable.InPlace emptyField [] := by
  constructor
  · have hsplit : splitString [delim] emptyField.line = some [textBytes "1", textBytes "2"] := by
      have hone := splitString_append (d := delim) (a := textBytes "1") (by decide) (by decide)
        (delim :: textBytes "2")
      have hnone := splitString_append (d := delim) (a := []) (by decide) (by decide)
        (textBytes "2")
      have htwo := splitString_of_notMem (d := delim) (a := textBytes "2") (by decide)
      rw [List.nil_append] at hnone
      rw [hnone, htwo] at hone
      exact hone
    rw [loadLine, hsplit]
    rfl
  · intro h
    exact ne_nil_of_mem_splitString h.1 [] (by decide) rfl

/-! ## Files -/

/-- The loop keeps the number of values. By induction on the columns. -/
theorem length_convertFields {i : ℕ} {converted : Converted}
    (h : table.convertFields i columns texts recordValues = some converted) :
    converted.recordValues.length = recordValues.length := by
  fun_induction convertFields table i columns texts recordValues generalizing converted with
  | case1 i type columns fileValue fileValues value recordValues ih =>
    obtain ⟨text, -, h⟩ := Option.bind_eq_some_iff.mp h
    cases hvalue : table.fieldValue type text with
    | none =>
      rw [hvalue] at h
      rw [← Option.some.inj h]
    | some value' =>
      rw [hvalue] at h
      obtain ⟨rest, hrest, heq⟩ := Option.bind_eq_some_iff.mp h
      rw [← Option.some.inj heq, List.length_cons, List.length_cons, ih hrest]
  | case2 => rw [← Option.some.inj h]

/-- A line keeps the number of values. -/
theorem length_loadLine {line : Text} {r : LineResult T}
    (h : table.loadLine line recordValues t = some r) :
    r.recordValues.length = recordValues.length := by
  obtain ⟨fileValues, -, h⟩ := Option.bind_eq_some_iff.mp h
  unfold insertRecordFromFile at h
  split_ifs at h with hlt
  · rw [← Option.some.inj h]
  · obtain ⟨converted, hconverted, h⟩ := Option.bind_eq_some_iff.mp h
    rw [← length_convertFields hconverted]
    split_ifs at h <;> rw [← Option.some.inj h]

/-- Lines of which each gives the table its row, or is blank, up to one that is refused. -/
inductive Loaded (table : LoadTable T) : List Text → T → RC × T → Prop
  | done (t : T) : Loaded table [] t (.success, t)
  | blank {line : Text} {lines : List Text} {t : T} {r : RC × T} (hblank : isBlankLine line)
      (h : Loaded table lines t r) : Loaded table (line :: lines) t r
  | row {fields : Fields} {values : List Value} {lines : List Text} {t t' : T} {r : RC × T}
      (hrow : table.IsRow table.columns fields.texts values)
      (hinsert : table.insertRecord values t = (.success, t'))
      (h : Loaded table lines t' r) : Loaded table (fields.line :: lines) t r
  | refused {fields : Fields} {values : List Value} {lines : List Text} {t t' : T} {rc : RC}
      (hrow : table.IsRow table.columns fields.texts values)
      (hinsert : table.insertRecord values t = (rc, t')) (hrc : rc ≠ .success) :
      Loaded table (fields.line :: lines) t (rc, t')
  | rejected {line : Text} {lines : List Text} {t : T} {rc : RC} (hrc : rc ≠ .success) :
      Loaded table (line :: lines) t (rc, t)

/-- **A file whose lines keep their columns in place** gives the table the rows of its lines. By
induction on the lines. -/
theorem loadLines_loaded {lines : List Text} (hvalues : recordValues.length = table.columns.length)
    (h : ∀ line ∈ lines, isBlankLine line ∨
      ∃ fields : Fields, fields.line = line ∧ ∀ t, table.InPlace fields t) (t : T) :
    ∃ r, table.loadLines lines recordValues t = some r ∧ Loaded table lines t r := by
  induction lines generalizing recordValues t with
  | nil => exact ⟨_, rfl, .done t⟩
  | cons line lines ih =>
    obtain ⟨hline, hlines⟩ := List.forall_mem_cons.mp h
    rw [loadLines]
    by_cases hblank : isBlankLine line
    · obtain ⟨r, hr, hloaded⟩ := ih hvalues hlines t
      exact ⟨r, (if_pos hblank).trans hr, .blank hblank hloaded⟩
    rw [if_neg hblank]
    obtain ⟨fields, rfl, hplace⟩ := hline.resolve_left hblank
    obtain ⟨-, hplace⟩ := hplace t
    obtain ⟨r, hr, hcase⟩ := hplace recordValues hvalues
    rw [hr, Option.bind_eq_bind, Option.bind_some]
    by_cases hrc : r.rc = .success
    · obtain ⟨values, hrow, hinsert⟩ := hcase.resolve_right fun hfail => hfail.1 hrc
      rw [hrc] at hinsert
      obtain ⟨r', hr', hloaded⟩ := ih ((length_loadLine hr).trans hvalues) hlines r.table
      exact ⟨r', (if_neg (not_not.mpr hrc)).trans hr', .row hrow hinsert hloaded⟩
    · refine ⟨_, if_pos hrc, ?_⟩
      obtain ⟨values, hrow, hinsert⟩ | ⟨-, htable⟩ := hcase
      · exact .refused hrow hinsert hrc
      · rw [htable]
        exact .rejected hrc

end LoadTable

end Miniob.Storage.Default
