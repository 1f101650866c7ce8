import Mathlib.Data.List.TakeWhile
import Miniob.Storage.Meta.ColumnLayout

/-!
# The file of a description

A description of a table is written to a file as a JSON value and read back when the table is
opened. The reader sorts the columns by their offsets, gets the size of a record from the last
column and looks up the columns of the indexes by their names.

* `Json`: the values of the JSON library, with the accesses that the reader makes.
* `TableMeta.toJson`, `TableMeta.ofJson`: the writer and the reader.
* `Described`: the descriptions that `TableMeta::init` and `TableMeta::add_index` make.
* `deserialize_serialize`: these are read back as they were written.

Text is what the JSON library writes and reads. An access to a member of a value that is not an
object is an assertion of the library that fails. Two columns with one offset are sorted in the
order that they have.
-/

namespace Miniob.Storage.Meta

open Miniob.Storage.Common

/-! ## Values -/

/-- A value of the JSON library. -/
inductive Json
  | null
  | bool (b : Bool)
  | int (v : Int)
  | string (s : String)
  | array (vs : List Json)
  | object (members : List (String × Json))

/-- How reading a description can fail. -/
inductive DeserializeError
  /-- The call returns -1. -/
  | failed
  /-- An assertion of the JSON library fails. -/
  | assertion
  deriving DecidableEq

namespace Json

/-- `operator[]` of the members of an object. -/
def lookup (members : List (String × Json)) (key : String) : Json :=
  ((members.find? fun p => p.1 = key).map Prod.snd).getD null

/-- `operator[]` -/
def member (key : String) : Json → Except DeserializeError Json
  | null => .ok null
  | object members => .ok (lookup members key)
  | _ => .error .assertion

/-- `isString` and `asString` -/
def string? : Json → Option String
  | string s => some s
  | _ => none

/-- `isInt` and `asInt` -/
def int? : Json → Option Int
  | int v => if -2147483648 ≤ v ∧ v ≤ 2147483647 then some v else none
  | _ => none

/-- `isBool` and `asBool` -/
def bool? : Json → Option Bool
  | bool b => some b
  | _ => none

/-- What `append` makes of a new value. -/
def ofList : List Json → Json
  | [] => null
  | vs => array vs

/-- `empty` -/
def isEmpty : Json → Bool
  | null => true
  | array vs => vs.isEmpty
  | object members => members.isEmpty
  | _ => false

/-- A check of the reader of a column or an index. -/
def check {α : Type} (x : Option α) : Except RC α := x.elim (.error .genericError) .ok

end Json

/-! ## Types -/

/-- Source: `parse.cpp`, `ATTR_TYPE_NAME` -/
def attrTypeName : List (String × AttrType) :=
  [("undefined", .undefined), ("chars", .chars), ("ints", .ints), ("floats", .floats),
    ("booleans", .booleans)]

/-- Source: `parse.cpp`, `attr_type_to_string` -/
def attrTypeToString : AttrType → String
  | .undefined => "undefined"
  | .chars => "chars"
  | .ints => "ints"
  | .floats => "floats"
  | .booleans => "unknown"

/-- Source: `parse.cpp`, `attr_type_from_string` -/
def attrTypeFromString (s : String) : AttrType :=
  ((attrTypeName.find? fun p => p.1 = s).map Prod.snd).getD .undefined

/-- Every type but `BOOLEANS` has the name that it is found under. -/
theorem attrTypeFromString_toString {type : AttrType} (h : type ≠ .booleans) :
    attrTypeFromString (cStr (attrTypeToString type)) = type := by
  cases type with
  | booleans => exact absurd rfl h
  | _ => decide

/-! ## Columns and indexes -/

/-- Source: `field_meta.cpp`, `FieldMeta::to_json` -/
def FieldMeta.toJson (field : FieldMeta) : Json :=
  .object [("name", .string field.name), ("type", .string (attrTypeToString field.type)),
    ("offset", .int field.offset), ("len", .int field.len), ("visible", .bool field.visible)]

/-- Source: `field_meta.cpp`, `FieldMeta::from_json` -/
def FieldMeta.ofJson : Json → Except RC FieldMeta
  | .object members => do
    let name ← Json.check (Json.lookup members "name").string?
    let type ← Json.check (Json.lookup members "type").string?
    let offset ← Json.check (Json.lookup members "offset").int?
    let len ← Json.check (Json.lookup members "len").int?
    let visible ← Json.check (Json.lookup members "visible").bool?
    if attrTypeFromString (cStr type) = .undefined then .error .genericError
    else FieldMeta.init name (attrTypeFromString (cStr type)) offset len visible
  | _ => .error .genericError

/-- Source: `index_meta.cpp`, `IndexMeta::to_json` -/
def indexToJson (index : IndexMeta) : Json :=
  .object [("name", .string index.name), ("field_name", .string index.field)]

/-- Source: `index_meta.cpp`, `IndexMeta::from_json` -/
def indexOfJson (table : TableMeta) (value : Json) :
    Except DeserializeError (Except RC IndexMeta) := do
  let nameValue ← value.member "name"
  let fieldValue ← value.member "field_name"
  return do
    let name ← Json.check nameValue.string?
    let field ← Json.check fieldValue.string?
    match table.fieldByName (cStr field) with
    | none => .error .schemaFieldMissing
    | some f => IndexMeta.init (cStr name) f.name

/-! ## Tables -/

namespace TableMeta

/-- Source: `table_meta.cpp`, `TableMeta::serialize` -/
def toJson (m : TableMeta) : Json :=
  .object [("table_name", .string m.name), ("fields", .ofList (m.fields.map FieldMeta.toJson)),
    ("indexes", .ofList (m.indexes.map indexToJson))]

/-- The loop over the columns. Source: `table_meta.cpp`, `TableMeta::deserialize` -/
def fieldsOfJson : Json → Except DeserializeError (List FieldMeta)
  | .array (value :: values) =>
    match (value :: values).mapM FieldMeta.ofJson with
    | .ok fields => .ok fields
    | .error _ => .error .failed
  | _ => .error .failed

/-- The loop over the indexes. Source: `table_meta.cpp`, `TableMeta::deserialize` -/
def indexesOfJson (table : TableMeta) : List Json → Except DeserializeError (List IndexMeta)
  | [] => .ok []
  | value :: values => do
    match ← indexOfJson table value with
    | .error _ => .error .failed
    | .ok index => return index :: (← indexesOfJson table values)

/-- The indexes of a new description. Source: `table_meta.cpp`, `TableMeta::deserialize` -/
def withIndexes (table : TableMeta) (value : Json) : Except DeserializeError TableMeta :=
  if value.isEmpty then .ok table
  else match value with
    | .array values => return { table with indexes := ← indexesOfJson table values }
    | _ => .error .failed

/-- The first column to the last one.
Source: `table_meta.cpp`, `TableMeta::deserialize` -/
def spanOf (fields : List FieldMeta) : Int :=
  match fields.getLast?, fields.head? with
  | some last, some first => last.offset + last.len - first.offset
  | _, _ => 0

/-- A new description from a value. Source: `table_meta.cpp`, `TableMeta::deserialize` -/
def ofJson (tableValue : Json) : Except DeserializeError TableMeta := do
  let nameValue ← tableValue.member "table_name"
  match nameValue.string? with
  | none => .error .failed
  | some tableName =>
    let fields ← fieldsOfJson (← tableValue.member "fields")
    let sorted := fields.mergeSort fun f g => f.offset ≤ g.offset
    withIndexes ⟨tableName, sorted, [], spanOf sorted⟩ (← tableValue.member "indexes")

section

variable {Text : Type}

/-- Source: `table_meta.cpp`, `TableMeta::serialize` -/
def serialize (write : Json → Text) (m : TableMeta) : Text := write m.toJson

/-- Source: `table_meta.cpp`, `TableMeta::deserialize` -/
def deserialize (read : Text → Option Json) (text : Text) : Except DeserializeError TableMeta :=
  match read text with
  | none => .error .failed
  | some value => ofJson value

end

end TableMeta

/-! ## Descriptions that are made -/

/-- The descriptions that `TableMeta::init` and `TableMeta::add_index` make, as long as the sums of
the lengths do not overflow. -/
inductive Described : TableMeta → Prop
  /-- A new table. -/
  | init {name : String} {attributes : List AttrInfo} {m : TableMeta}
    (hinit : TableMeta.init name attributes = .ok m)
    (htype : ∀ a ∈ attributes, a.type = .ints ∨ a.type = .chars ∨ a.type = .floats)
    (hsums : (4 + totalLength attributes : Int) ≤ 2147483647) : Described m
  /-- A new index of a column. -/
  | addIndex {m : TableMeta} {name : String} {field : FieldMeta} {index : IndexMeta}
    (h : Described m) (hfield : field ∈ m.fields)
    (hindex : IndexMeta.init (cStr name) field.name = .ok index) : Described (m.addIndex index)

/-- A column that the reader accepts. -/
structure FieldMeta.Sound (field : FieldMeta) : Prop where
  name : cStr field.name = field.name
  blank : isBlank field.name = false
  type : field.type ≠ .undefined ∧ field.type ≠ .booleans
  offset : 0 ≤ field.offset ∧ field.offset ≤ 2147483647
  len : 0 < field.len ∧ field.len ≤ 2147483647

/-- A description that the reader makes again. -/
structure TableMeta.Sound (m : TableMeta) : Prop where
  nonempty : m.fields ≠ []
  fields : ∀ f ∈ m.fields, f.Sound
  sorted : m.fields.Pairwise fun f g => f.offset < g.offset
  recordSize : m.recordSize = spanOf m.fields
  indexes : ∀ index ∈ m.indexes, cStr index.name = index.name ∧ isBlank index.name = false ∧
    ∃ f ∈ m.fields, f.name = index.field

theorem cStr_cStr (s : String) : cStr (cStr s) = cStr s := by
  unfold cStr
  rw [String.toList_ofList, List.takeWhile_idem]

variable {m : TableMeta} {field : FieldMeta} {index : IndexMeta}

/-- **A column is read back as it was written.** -/
theorem FieldMeta.ofJson_toJson (h : field.Sound) : FieldMeta.ofJson field.toJson = .ok field := by
  obtain ⟨hname, hblank, ⟨hundefined, hbooleans⟩, hoffset, hlen⟩ := h
  have hint : Json.int? (.int field.offset) = some field.offset :=
    if_pos ⟨by omega, hoffset.2⟩
  have hint' : Json.int? (.int field.len) = some field.len := if_pos ⟨by omega, hlen.2⟩
  have htype := attrTypeFromString_toString hbooleans
  have hinit : FieldMeta.init field.name field.type field.offset field.len field.visible =
      .ok field := by
    rw [FieldMeta.init_eq_ok_iff, hname]
    exact ⟨hblank, hundefined, hoffset.1, hlen.1, rfl⟩
  simp only [FieldMeta.ofJson, FieldMeta.toJson, Json.lookup]
  simp only [List.find?_cons, String.reduceEq, decide_true, decide_false, Option.map_some,
    Option.getD_some, Json.string?, Json.bool?, hint, hint', Json.check, Option.elim_some, ok_bind]
  rw [htype, if_neg hundefined, hinit]

/-- An index is read back as it was written, if its column is one of the table. -/
theorem indexOfJson_toJson (h : cStr index.name = index.name) (hblank : isBlank index.name = false)
    (hfield : ∃ f ∈ m.fields, f.name = index.field)
    (hfields : ∀ f ∈ m.fields, cStr f.name = f.name) :
    indexOfJson m (indexToJson index) = .ok (.ok index) := by
  obtain ⟨f, hf, hname⟩ := hfield
  have hcStr : cStr index.field = index.field := by
    rw [← hname]
    exact hfields f hf
  obtain ⟨g, hg⟩ : ∃ g, m.fieldByName (cStr index.field) = some g := by
    rw [← Option.isSome_iff_exists, hcStr, TableMeta.fieldByName, List.find?_isSome]
    exact ⟨f, hf, by simpa using hname⟩
  have hgname : g.name = index.field := by
    have := List.find?_some hg
    rw [hcStr] at this
    simpa using this
  have hinit : IndexMeta.init (cStr index.name) g.name = .ok index := by
    rw [h, hgname, IndexMeta.init, hblank]
    rfl
  simp only [indexOfJson, indexToJson, Json.member, Json.lookup]
  simp only [List.find?_cons, String.reduceEq, decide_true, decide_false, Option.map_some,
    Option.getD_some, Json.string?, Json.check]
  show Except.ok (match m.fieldByName (cStr index.field) with
    | none => _
    | some f => _) = _
  rw [hg]
  exact congrArg Except.ok hinit

namespace TableMeta

/-- All columns are read back. -/
theorem fieldsOfJson_toJson (h : m.fields ≠ []) (hfields : ∀ f ∈ m.fields, f.Sound) :
    fieldsOfJson (.ofList (m.fields.map FieldMeta.toJson)) = .ok m.fields := by
  have hmap : (m.fields.map FieldMeta.toJson).mapM FieldMeta.ofJson = .ok m.fields := by
    generalize m.fields = fields at hfields
    induction fields with
    | nil => rfl
    | cons f fields ih =>
      obtain ⟨hf, hfields⟩ := List.forall_mem_cons.mp hfields
      rw [List.map_cons, List.mapM_cons, FieldMeta.ofJson_toJson hf, ih hfields]
      rfl
  obtain ⟨f, fields, hcons⟩ := List.exists_cons_of_ne_nil h
  rw [hcons, List.map_cons] at hmap ⊢
  rw [Json.ofList, fieldsOfJson, hmap]
  exact fun h => nomatch h

/-- All indexes are read back. -/
theorem indexesOfJson_toJson (hfields : ∀ f ∈ m.fields, cStr f.name = f.name)
    {indexes : List IndexMeta} (h : ∀ index ∈ indexes, cStr index.name = index.name ∧
      isBlank index.name = false ∧ ∃ f ∈ m.fields, f.name = index.field) :
    indexesOfJson m (indexes.map indexToJson) = .ok indexes := by
  induction indexes with
  | nil => rfl
  | cons index indexes ih =>
    obtain ⟨⟨hname, hblank, hfield⟩, h⟩ := List.forall_mem_cons.mp h
    rw [List.map_cons, indexesOfJson, indexOfJson_toJson hname hblank hfield hfields, ih h]
    rfl

/-- **A description that is sound is read back as it was written.** -/
theorem Sound.ofJson_toJson (h : m.Sound) : ofJson m.toJson = .ok m := by
  have hnames : ∀ f ∈ m.fields, cStr f.name = f.name := fun f hf => (h.fields f hf).name
  have hsort : m.fields.mergeSort (fun f g => f.offset ≤ g.offset) = m.fields :=
    List.mergeSort_of_pairwise (h.sorted.imp fun hlt => by simpa using hlt.le)
  have hindexes : withIndexes { m with indexes := [] } (.ofList (m.indexes.map indexToJson)) =
      .ok m := by
    have hread : indexesOfJson { m with indexes := [] } (m.indexes.map indexToJson) =
      .ok m.indexes := indexesOfJson_toJson (m := { m with indexes := [] }) hnames h.indexes
    obtain ⟨name, fields, indexes, size⟩ := m
    cases indexes with
    | nil => rfl
    | cons index indexes =>
      rw [List.map_cons] at hread ⊢
      rw [Json.ofList, withIndexes, if_neg (by simp [Json.isEmpty]), hread]
      · rfl
      · exact fun h => nomatch h
  have hmember : ∀ key, m.toJson.member key = .ok (Json.lookup
      [("table_name", .string m.name), ("fields", .ofList (m.fields.map FieldMeta.toJson)),
        ("indexes", .ofList (m.indexes.map indexToJson))] key) := fun key => rfl
  have hfields := fieldsOfJson_toJson h.nonempty h.fields
  rw [ofJson, hmember, hmember, hmember]
  simp only [Json.lookup, List.find?_cons, String.reduceEq, decide_true, decide_false,
    Option.map_some, Option.getD_some]
  show (do
    let fields ← fieldsOfJson (.ofList (m.fields.map FieldMeta.toJson))
    withIndexes ⟨m.name, fields.mergeSort fun f g => f.offset ≤ g.offset, [],
      spanOf (fields.mergeSort fun f g => f.offset ≤ g.offset)⟩
        (.ofList (m.indexes.map indexToJson))) = _
  rw [hfields]
  show withIndexes ⟨m.name, m.fields.mergeSort fun f g => f.offset ≤ g.offset, [],
      spanOf (m.fields.mergeSort fun f g => f.offset ≤ g.offset)⟩
        (.ofList (m.indexes.map indexToJson)) = _
  rw [hsort, ← h.recordSize]
  exact hindexes

end TableMeta

/-! ## The theorem -/

theorem placeFields_sound {attributes : List AttrInfo} {off : Int} (hoff : 0 ≤ off)
    (h : ∀ a ∈ attributes, isBlank (cStr a.name) = false ∧ 0 < a.length ∧
      (a.type = .ints ∨ a.type = .chars ∨ a.type = .floats))
    (hsums : off + totalLength attributes ≤ 2147483647) (hfield : field ∈ placeFields off attributes) :
    field.Sound := by
  induction attributes generalizing off with
  | nil => cases hfield
  | cons a attributes ih =>
    obtain ⟨⟨hblank, hpos, htype⟩, h⟩ := List.forall_mem_cons.mp h
    rw [totalLength_cons] at hsums
    rcases List.mem_cons.mp hfield with rfl | hfield
    · refine ⟨cStr_cStr _, hblank, ?_, ⟨hoff, ?_⟩, ⟨?_, ?_⟩⟩
      · show a.type ≠ _ ∧ a.type ≠ _
        rcases htype with heq | heq | heq <;> rw [heq] <;> decide
      all_goals dsimp only; omega
    · exact ih (by omega) h (by omega) hfield

theorem getLast?_placeFields {attributes : List AttrInfo} {off : Int} (h : attributes ≠ []) :
    ∃ last, (placeFields off attributes).getLast? = some last ∧
      last.offset + last.len = off + totalLength attributes := by
  induction attributes generalizing off with
  | nil => exact absurd rfl h
  | cons a attributes ih =>
    cases attributes with
    | nil => exact ⟨_, rfl, by simp [placeFields]⟩
    | cons b attributes =>
      obtain ⟨last, hlast, hend⟩ : ∃ last,
          (placeFields (off + a.length) (b :: attributes)).getLast? = some last ∧
            last.offset + last.len = _ := ih (List.cons_ne_nil _ _)
      refine ⟨last, ?_, ?_⟩
      · rw [placeFields, List.getLast?_cons, hlast]
        rfl
      · rw [hend, totalLength_cons a]
        push_cast
        ring

/-- Every description that is made is sound. By induction on the calls. -/
theorem Described.sound (h : Described m) : m.Sound := by
  induction h with
  | @init name attributes m hinit htype hsums =>
    have hlayout := columnLayout_of_sums hinit hsums
    obtain ⟨-, hne, fields, size, hfields, rfl⟩ := TableMeta.init_eq_ok hinit
    have hnumber : ∀ a ∈ attributes, a.FromNumber := fun a ha =>
      AttrInfo.fromNumber_of_le (by have := length_le_totalLength ha; omega)
    obtain ⟨rfl, hall, -⟩ := TableMeta.initFields_spec hnumber (by decide) (by decide) hfields
    refine ⟨List.cons_ne_nil _ _, fun f hf => ?_, ?_, ?_, fun index hindex => nomatch hindex⟩
    · rcases List.mem_cons.mp hf with rfl | hf
      · exact ⟨by decide, by decide, by decide, by decide, by decide⟩
      · refine placeFields_sound (by decide) (fun a ha => ?_) hsums hf
        exact ⟨(hall a ha).1, (hall a ha).2.2.1, htype a ha⟩
    · refine (fields_pairwise fun a ha => (hall a ha).2.2.1).imp_of_mem fun {f g} hf hg hle => ?_
      have hpos : 0 < f.len := by
        rcases List.mem_cons.mp hf with rfl | hf
        · decide
        · exact (placeFields_bounds (fun a ha => (hall a ha).2.2.1) hf).2.1
      omega
    · obtain ⟨last, hlast, hend⟩ : ∃ last, (placeFields 4 attributes).getLast? = some last ∧
          last.offset + last.len = _ := getLast?_placeFields hne
      have hlast' : (sysFields ++ placeFields 4 attributes).getLast? = some last := by
        rw [List.getLast?_append, hlast]
        rfl
      rw [hlayout.recordSize, TableMeta.spanOf]
      dsimp only
      rw [hlast']
      show _ = last.offset + last.len - 0
      rw [hend, Int.sub_zero]
  | @addIndex m name field index h hfield hindex ih =>
    refine ⟨ih.nonempty, ih.fields, ih.sorted, ih.recordSize, fun i hi => ?_⟩
    rcases List.mem_append.mp hi with hi | hi
    · exact ih.indexes i hi
    · obtain rfl := List.mem_singleton.mp hi
      unfold IndexMeta.init at hindex
      split at hindex
      · cases hindex
      · rename_i hblank
        cases hindex
        exact ⟨cStr_cStr name, by simpa using hblank, field, hfield, rfl⟩

/-- **A description is read back as it was written**, if the JSON library reads what it has
written. -/
theorem deserialize_serialize {Text : Type} {write : Json → Text} {read : Text → Option Json}
    (h : Described m) (hjson : read (write m.toJson) = some m.toJson) :
    TableMeta.deserialize read (m.serialize write) = .ok m := by
  rw [TableMeta.deserialize, TableMeta.serialize, hjson]
  exact h.sound.ofJson_toJson

/-- A table with a column of numbers and an index. -/
def indexedMeta : TableMeta :=
  ⟨"t", [trxField, ⟨"a", .ints, 4, 4, true⟩], [⟨"i", "a"⟩], 8⟩

/-- What the JSON library writes for it. -/
def indexedText : String :=
  "\x7b\n\t\"fields\" : \n\t[\n\t\t\x7b\n\t\t\t\"len\" : 4,\n\t\t\t\"name\" : \"__trx\",\n" ++
  "\t\t\t\"offset\" : 0,\n\t\t\t\"type\" : \"ints\",\n\t\t\t\"visible\" : false\n\t\t\x7d,\n" ++
  "\t\t\x7b\n\t\t\t\"len\" : 4,\n\t\t\t\"name\" : \"a\",\n\t\t\t\"offset\" : 4,\n" ++
  "\t\t\t\"type\" : \"ints\",\n\t\t\t\"visible\" : true\n\t\t\x7d\n\t],\n\t\"indexes\" : \n\t[\n" ++
  "\t\t\x7b\n\t\t\t\"field_name\" : \"a\",\n\t\t\t\"name\" : \"i\"\n\t\t\x7d\n\t],\n" ++
  "\t\"table_name\" : \"t\"\n\x7d"

theorem indexedMeta_read_back :
    TableMeta.deserialize (fun text => if text = indexedText then some indexedMeta.toJson else none)
      (indexedMeta.serialize fun _ => indexedText) = .ok indexedMeta := by
  have hinit : Described ⟨"t", [trxField, ⟨"a", .ints, 4, 4, true⟩], [], 8⟩ :=
    @Described.init "t" [⟨.ints, "a", 4⟩] _ (by decide) (by decide) (by decide)
  have hindex : Described indexedMeta :=
    @Described.addIndex _ "i" ⟨"a", .ints, 4, 4, true⟩ _ hinit (by decide) (by decide)
  exact deserialize_serialize hindex (if_pos rfl)

end Miniob.Storage.Meta
