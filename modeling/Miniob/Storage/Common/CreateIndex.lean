import Miniob.Storage.Common.Table

/-!
# Making an index

`Table::create_index` changes the list of the open indexes, the description of the table, the file
of the index and the file of the description one after the other, and any step can fail.

* `TableIndexes`: these four, and `createIndex` with what the calls of a run return.
* `Refused`: a check fails, or the file of the index cannot be made. Such a call changes nothing.
* `createIndex_cases`: what a call can do.
* `LeavesNoTrace`: what a failed call should leave. `failed_create_index_iff` says that it is left
  by the calls that are refused, and that the indexes and their description stay in step as long as
  the description can be written.
-/

namespace Miniob.Storage.Common

open Miniob.Storage.Index

/-! ## The data -/

/-- Source: `index_meta.h`, `class IndexMeta` -/
structure IndexMeta where
  /-- `name_` -/
  name : String
  /-- `field_` -/
  field : String
  deriving DecidableEq

/-- An index that is open. Source: `index.h`, `class Index`; `bplus_tree_index.h` -/
structure OpenIndex (V A : Type) [LinearOrder A] where
  /-- `index_meta_` -/
  indexMeta : IndexMeta
  /-- `index_handler_` -/
  tree : TableIndex V A

/-- What `Table::create_index` reads and changes. Source: `table.h`, `class Table` -/
structure TableIndexes (V A : Type) [LinearOrder A] where
  /-- The names of the fields of `table_meta_`. -/
  fields : List String
  /-- The indexes of `table_meta_`. -/
  indexMetas : List IndexMeta
  /-- `indexes_` -/
  indexes : List (OpenIndex V A)
  /-- The names of the indexes that have a file. -/
  indexFiles : List String
  /-- The indexes in the file of the description. -/
  metaFile : List IndexMeta

/-- What the calls of a run return. -/
structure CreateOutcomes where
  /-- A file that is not there can be made. -/
  exclusive : Bool
  /-- The rest of `BufferPoolManager::create_file`, which opens the file again and writes it. -/
  createFile : RC
  /-- `BufferPoolManager::open_file` -/
  openFile : RC
  /-- `DiskBufferPool::allocate_page` -/
  allocatePage : RC
  /-- The page number of the header is that of a new file. -/
  headerPage : Bool
  /-- `MemPoolItem::init` -/
  memPool : Bool
  /-- `Table::scan_record`, apart from a key that an index has twice. -/
  scanRecord : RC
  /-- The temporary file of the description can be opened. -/
  openMeta : Bool
  /-- `TableMeta::serialize` -/
  serialize : Bool
  /-- `rename` -/
  rename : Bool
  deriving DecidableEq

/-- Nothing goes wrong. -/
def CreateOutcomes.fine : CreateOutcomes :=
  ⟨true, .success, .success, .success, true, true, .success, true, true, true⟩

/-- The new description gets into the place of the old one. -/
def CreateOutcomes.MetaWritten (o : CreateOutcomes) : Prop :=
  o.openMeta = true ∧ o.serialize = true ∧ o.rename = true

/-- Source: `index_meta.cpp`, `IndexMeta::init` -/
def IndexMeta.init (name field : String) : Except RC IndexMeta :=
  if isBlank name then .error .invalidArgument else .ok ⟨name, field⟩

variable {V A : Type} [LinearOrder A]

namespace TableIndexes

/-! ## Lookups -/

/-- Source: `table_meta.cpp`, `TableMeta::index` -/
def index (s : TableIndexes V A) (name : String) : Option IndexMeta :=
  s.indexMetas.find? fun indexMeta => indexMeta.name = name

/-- Source: `table_meta.cpp`, `TableMeta::find_index_by_field` -/
def metaByField (s : TableIndexes V A) (field : String) : Option IndexMeta :=
  s.indexMetas.find? fun indexMeta => indexMeta.field = field

/-! ## Changing rows -/

/-- The open indexes with these trees. -/
def withTrees (s : TableIndexes V A) (trees : List (TableIndex V A)) : TableIndexes V A :=
  { s with indexes := s.indexes.zipWith (fun index tree => { index with tree := tree }) trees }

/-- Source: `table.cpp`, `Table::insert_entry_of_indexes` -/
def insertEntry (s : TableIndexes V A) (values : V) (rid : RID) : RC × TableIndexes V A :=
  let (rc, trees) := insertEntryOfIndexes (s.indexes.map OpenIndex.tree) values rid
  (rc, s.withTrees trees)

/-- Source: `table.cpp`, `Table::delete_entry_of_indexes` -/
def deleteEntry (s : TableIndexes V A) (errorOnNotExists : Bool) (values : V) (rid : RID) :
    RC × TableIndexes V A :=
  let (rc, trees) :=
    deleteEntryOfIndexes errorOnNotExists (s.indexes.map OpenIndex.tree) values rid
  (rc, s.withTrees trees)

/-! ## Making an index -/

/-- The file of a new tree. A file that is there already cannot be made.
Source: `bplus_tree.cpp`, `BplusTreeHandler::create`; `disk_buffer_pool.cpp`,
`BufferPoolManager::create_file` -/
def createTree (o : CreateOutcomes) (indexFiles : List String) (name : String) :
    RC × List String :=
  if name ∈ indexFiles ∨ ¬ o.exclusive then (.schemaDbExist, indexFiles)
  else
    let indexFiles := name :: indexFiles
    if o.createFile ≠ .success then (o.createFile, indexFiles)
    else if o.openFile ≠ .success then (o.openFile, indexFiles)
    else if o.allocatePage ≠ .success then (o.allocatePage, indexFiles)
    else if ¬ o.headerPage then (.internal, indexFiles)
    else if ¬ o.memPool then (.nomem, indexFiles)
    else (.success, indexFiles)

/-- Insert the rows of the table. Source: `table.cpp`, `IndexInserter::insert_index` -/
def insertRows (tree : TableIndex V A) : List (RID × V) → RC × TableIndex V A
  | [] => (.success, tree)
  | (rid, values) :: rows =>
    let (rc, tree) := tree.insertEntry values rid
    if rc ≠ .success then (rc, tree) else insertRows tree rows

/-- The scan that inserts the rows. Source: `table.cpp`, `Table::create_index` -/
def scanRows (o : CreateOutcomes) (tree : TableIndex V A) (rows : List (RID × V)) :
    RC × TableIndex V A :=
  let (rc, tree) := insertRows tree rows
  (if o.scanRecord ≠ .success then o.scanRecord else rc, tree)

/-- Write the new description to a temporary file, and put this in the place of the old one.
Source: `table.cpp`, `Table::create_index`; `table_meta.cpp`, `TableMeta::add_index` -/
def writeMeta (s : TableIndexes V A) (o : CreateOutcomes) (newIndexMeta : IndexMeta) :
    RC × TableIndexes V A :=
  let newIndexMetas := s.indexMetas ++ [newIndexMeta]
  if ¬ o.openMeta then (.ioerr, s)
  else if ¬ o.serialize then (.ioerr, s)
  else if ¬ o.rename then (.ioerr, s)
  else (.success, { s with metaFile := newIndexMetas, indexMetas := newIndexMetas })

variable (column : String → IndexColumn V A)

/-- Source: `table.cpp`, `Table::create_index` -/
def createIndex (s : TableIndexes V A) (rows : List (RID × V)) (o : CreateOutcomes)
    (indexName attributeName : String) : RC × TableIndexes V A :=
  if isBlank indexName ∨ isBlank attributeName then (.invalidArgument, s)
  else if (s.index indexName).isSome ∨ (s.metaByField attributeName).isSome then
    (.schemaIndexExist, s)
  else if attributeName ∉ s.fields then (.schemaFieldMissing, s)
  else
    match IndexMeta.init indexName attributeName with
    | .error rc => (rc, s)
    | .ok newIndexMeta =>
      let (rc, indexFiles) := createTree o s.indexFiles indexName
      let s := { s with indexFiles := indexFiles }
      if rc ≠ .success then (rc, s)
      else
        let (rc, tree) := scanRows o (column attributeName).newIndex rows
        if rc ≠ .success then (rc, s)
        else
          -- the index is in the list before its description is written
          writeMeta { s with indexes := s.indexes ++ [⟨newIndexMeta, tree⟩] } o newIndexMeta

/-! ## Opening the table -/

/-- Open the indexes of the description, whose files hold these entries.
Source: `table.cpp`, `Table::open` -/
def openIndexes (fields : List String)
    (openTree : String → Except RC (Option (SortedSet (IndexKey A)))) :
    List IndexMeta → Except RC (List (OpenIndex V A))
  | [] => .ok []
  | indexMeta :: indexMetas =>
    if indexMeta.field ∉ fields then .error .genericError
    else do
      let entries ← openTree indexMeta.name
      let indexes ← openIndexes fields openTree indexMetas
      return ⟨indexMeta, (column indexMeta.field).openIndex entries⟩ :: indexes

/-- Source: `table.cpp`, `Table::open` -/
def openTable (s : TableIndexes V A)
    (openTree : String → Except RC (Option (SortedSet (IndexKey A)))) :
    Except RC (TableIndexes V A) := do
  let indexes ← openIndexes column s.fields openTree s.metaFile
  return { s with indexMetas := s.metaFile, indexes := indexes }

/-! ## What a call can do -/

/-- A check fails, or the file of the index cannot be made. -/
def Refused (s : TableIndexes V A) (o : CreateOutcomes) (indexName attributeName : String) :
    Prop :=
  isBlank indexName ∨ isBlank attributeName ∨ (s.index indexName).isSome ∨
    (s.metaByField attributeName).isSome ∨ attributeName ∉ s.fields ∨ indexName ∈ s.indexFiles ∨
    o.exclusive = false

/-- The name and the field pass the checks, and the file is not there. -/
structure Accepted (s : TableIndexes V A) (o : CreateOutcomes) (indexName attributeName : String) :
    Prop where
  nameOk : isBlank indexName = false
  attributeOk : isBlank attributeName = false
  newName : s.index indexName = none
  newField : s.metaByField attributeName = none
  hasField : attributeName ∈ s.fields
  newFile : indexName ∉ s.indexFiles
  exclusive : o.exclusive = true

theorem accepted_iff {s : TableIndexes V A} {o : CreateOutcomes}
    {indexName attributeName : String} :
    s.Accepted o indexName attributeName ↔ ¬ s.Refused o indexName attributeName := by
  simp only [Refused, not_or, Bool.not_eq_true, Option.isSome_eq_false_iff,
    Option.isNone_iff_eq_none, not_not, Bool.not_eq_false]
  constructor
  · rintro ⟨h₁, h₂, h₃, h₄, h₅, h₆, h₇⟩
    exact ⟨h₁, h₂, h₃, h₄, h₅, h₆, h₇⟩
  · rintro ⟨h₁, h₂, h₃, h₄, h₅, h₆, h₇⟩
    exact ⟨h₁, h₂, h₃, h₄, h₅, h₆, h₇⟩

/-- What a call returns and leaves. -/
inductive Created (s : TableIndexes V A) (o : CreateOutcomes) (indexName attributeName : String) :
    RC × TableIndexes V A → Prop
  | refused {rc : RC} (h : s.Refused o indexName attributeName) (hrc : rc ≠ .success) :
      Created s o indexName attributeName (rc, s)
  | fileLeft {rc : RC} (h : s.Accepted o indexName attributeName) (hrc : rc ≠ .success) :
      Created s o indexName attributeName (rc, { s with indexFiles := indexName :: s.indexFiles })
  | indexLeft (tree : TableIndex V A) (h : s.Accepted o indexName attributeName)
      (hmeta : ¬ o.MetaWritten) :
      Created s o indexName attributeName (.ioerr,
        { s with
          indexFiles := indexName :: s.indexFiles
          indexes := s.indexes ++ [⟨⟨indexName, attributeName⟩, tree⟩] })
  | made (tree : TableIndex V A) (h : s.Accepted o indexName attributeName)
      (hmeta : o.MetaWritten) :
      Created s o indexName attributeName (.success,
        { s with
          indexFiles := indexName :: s.indexFiles
          indexes := s.indexes ++ [⟨⟨indexName, attributeName⟩, tree⟩]
          metaFile := s.indexMetas ++ [⟨indexName, attributeName⟩]
          indexMetas := s.indexMetas ++ [⟨indexName, attributeName⟩] })

theorem createTree_refused {o : CreateOutcomes} {indexFiles : List String} {name : String}
    (h : name ∈ indexFiles ∨ o.exclusive = false) :
    createTree o indexFiles name = (.schemaDbExist, indexFiles) := by
  rw [createTree, if_pos (h.imp_right fun h => by simp [h])]

/-- The file is there whatever goes wrong afterwards. -/
theorem createTree_file {o : CreateOutcomes} {indexFiles : List String} {name : String}
    (h : name ∉ indexFiles) (hexclusive : o.exclusive = true) :
    ∃ rc, createTree o indexFiles name = (rc, name :: indexFiles) := by
  rw [createTree, if_neg (by simp [h, hexclusive])]
  dsimp only
  split_ifs <;> exact ⟨_, rfl⟩

theorem writeMeta_of_not {s : TableIndexes V A} {o : CreateOutcomes} {newIndexMeta : IndexMeta}
    (h : ¬ o.MetaWritten) : s.writeMeta o newIndexMeta = (.ioerr, s) := by
  unfold CreateOutcomes.MetaWritten at h
  unfold writeMeta
  dsimp only
  split_ifs <;> first | rfl | simp_all

theorem writeMeta_of_written {s : TableIndexes V A} {o : CreateOutcomes} {newIndexMeta : IndexMeta}
    (h : o.MetaWritten) :
    s.writeMeta o newIndexMeta =
      (.success, { s with
        metaFile := s.indexMetas ++ [newIndexMeta]
        indexMetas := s.indexMetas ++ [newIndexMeta] }) := by
  obtain ⟨hopen, hserialize, hrename⟩ := h
  simp [writeMeta, hopen, hserialize, hrename]

/-- A call that the checks accept goes on to the file of the index. -/
theorem createIndex_of_accepted {s : TableIndexes V A} {o : CreateOutcomes}
    {indexName attributeName : String} (h : s.Accepted o indexName attributeName)
    (rows : List (RID × V)) :
    s.createIndex column rows o indexName attributeName =
      let (rc, indexFiles) := createTree o s.indexFiles indexName
      let s := { s with indexFiles := indexFiles }
      if rc ≠ .success then (rc, s)
      else
        let (rc, tree) := scanRows o (column attributeName).newIndex rows
        if rc ≠ .success then (rc, s)
        else writeMeta { s with indexes := s.indexes ++ [⟨⟨indexName, attributeName⟩, tree⟩] } o
          ⟨indexName, attributeName⟩ := by
  rw [createIndex, if_neg (by simp [h.nameOk, h.attributeOk]),
    if_neg (by simp [h.newName, h.newField]), if_neg (by simp [h.hasField]), IndexMeta.init,
    if_neg (by simp [h.nameOk])]

/-- A call that is refused changes nothing. -/
theorem createIndex_of_refused {s : TableIndexes V A} {o : CreateOutcomes}
    {indexName attributeName : String} (rows : List (RID × V))
    (h : s.Refused o indexName attributeName) :
    Created s o indexName attributeName (s.createIndex column rows o indexName attributeName) := by
  rw [createIndex]
  split
  · exact .refused h (by decide)
  · rename_i hblank
    split
    · exact .refused h (by decide)
    · rename_i hexists
      split
      · exact .refused h (by decide)
      · rename_i hfield
        have hfile : indexName ∈ s.indexFiles ∨ o.exclusive = false := by
          rcases h with h | h | h | h | h | h | h
          · exact absurd (Or.inl h) hblank
          · exact absurd (Or.inr h) hblank
          · exact absurd (Or.inl h) hexists
          · exact absurd (Or.inr h) hexists
          · exact absurd h hfield
          · exact Or.inl h
          · exact Or.inr h
        rw [IndexMeta.init, if_neg (fun hname => hblank (Or.inl hname)), createTree_refused hfile]
        exact .refused h (by decide)

/-- **What a call can do.** The cases are the steps that fail, in their order. -/
theorem createIndex_cases (s : TableIndexes V A) (rows : List (RID × V)) (o : CreateOutcomes)
    (indexName attributeName : String) :
    Created s o indexName attributeName (s.createIndex column rows o indexName attributeName) := by
  by_cases hrefused : s.Refused o indexName attributeName
  · exact createIndex_of_refused column rows hrefused
  · have haccepted := accepted_iff.mpr hrefused
    rw [createIndex_of_accepted column haccepted]
    obtain ⟨rc, hfile⟩ := createTree_file haccepted.newFile haccepted.exclusive
    rw [hfile]
    dsimp only
    split_ifs with hrc hscan
    · exact .fileLeft haccepted hrc
    · exact .fileLeft haccepted hscan
    · by_cases hmeta : o.MetaWritten
      · rw [writeMeta_of_written hmeta]
        exact .made _ haccepted hmeta
      · rw [writeMeta_of_not hmeta]
        exact .indexLeft _ haccepted hmeta

/-! ## Failed calls -/

/-- What a failed call should leave behind: the indexes and their description are those of before,
later insertions and deletions do what they would have done, and a later call with the same name and
field can succeed if it could before. -/
structure LeavesNoTrace (s s' : TableIndexes V A) (indexName attributeName : String) : Prop where
  indexes_eq : s'.indexes.map OpenIndex.indexMeta = s.indexes.map OpenIndex.indexMeta
  indexMetas_eq : s'.indexMetas = s.indexMetas
  insertEntry_eq : ∀ values rid, (s'.insertEntry values rid).1 = (s.insertEntry values rid).1 ∧
    (s'.insertEntry values rid).2.indexes = (s.insertEntry values rid).2.indexes
  deleteEntry_eq : ∀ errorOnNotExists values rid,
    (s'.deleteEntry errorOnNotExists values rid).1 = (s.deleteEntry errorOnNotExists values rid).1 ∧
      (s'.deleteEntry errorOnNotExists values rid).2.indexes =
        (s.deleteEntry errorOnNotExists values rid).2.indexes
  again : ∀ rows, (s.createIndex column rows .fine indexName attributeName).1 = .success →
    (s'.createIndex column rows .fine indexName attributeName).1 = .success

theorem LeavesNoTrace.refl (s : TableIndexes V A) (indexName attributeName : String) :
    s.LeavesNoTrace column s indexName attributeName :=
  ⟨rfl, rfl, fun _ _ => ⟨rfl, rfl⟩, fun _ _ _ => ⟨rfl, rfl⟩, fun _ h => h⟩

/-- A file that is left makes every later call with the name fail. -/
theorem createIndex_of_file {s : TableIndexes V A} {indexName : String}
    (h : indexName ∈ s.indexFiles) (rows : List (RID × V)) (o : CreateOutcomes)
    (attributeName : String) :
    (s.createIndex column rows o indexName attributeName).1 ≠ .success := by
  have hrefused : s.Refused o indexName attributeName := by
    simp [Refused, h]
  have hcreated := createIndex_of_refused column rows hrefused
  generalize s.createIndex column rows o indexName attributeName = r at hcreated ⊢
  cases hcreated with
  | refused _ hrc => exact hrc
  | fileLeft _ hrc => exact hrc
  | indexLeft => simp
  | made _ haccepted => exact absurd hrefused (accepted_iff.mp haccepted)

/-- An empty table gets the index if nothing goes wrong. -/
theorem createIndex_fine {s : TableIndexes V A} {o : CreateOutcomes}
    {indexName attributeName : String} (h : s.Accepted o indexName attributeName) :
    (s.createIndex column [] .fine indexName attributeName).1 = .success := by
  have hfine : s.Accepted .fine indexName attributeName := { h with exclusive := rfl }
  have htree : createTree .fine s.indexFiles indexName =
      (.success, indexName :: s.indexFiles) := by
    simp [createTree, h.newFile, CreateOutcomes.fine]
  rw [createIndex_of_accepted column hfine, htree]
  rfl

/-- A call that makes the file and fails leaves it. -/
theorem not_leavesNoTrace {s s' : TableIndexes V A} {o : CreateOutcomes}
    {indexName attributeName : String} (h : s.Accepted o indexName attributeName)
    (hfile : indexName ∈ s'.indexFiles) :
    ¬ s.LeavesNoTrace column s' indexName attributeName := fun htrace =>
  createIndex_of_file column hfile [] .fine attributeName
    (htrace.again [] (createIndex_fine column h))

theorem leavesNoTrace_iff {s s' : TableIndexes V A} {o : CreateOutcomes}
    {indexName attributeName : String} {rc : RC} (h : Created s o indexName attributeName (rc, s'))
    (hrc : rc ≠ .success) :
    s.LeavesNoTrace column s' indexName attributeName ↔ s.Refused o indexName attributeName := by
  have hleft : s.Accepted o indexName attributeName → indexName ∈ s'.indexFiles →
      (s.LeavesNoTrace column s' indexName attributeName ↔ s.Refused o indexName attributeName) :=
    fun haccepted hfile =>
      iff_of_false (not_leavesNoTrace column haccepted hfile) (accepted_iff.mp haccepted)
  cases h with
  | refused hrefused => exact iff_of_true (.refl column s _ _) hrefused
  | fileLeft haccepted => exact hleft haccepted List.mem_cons_self
  | indexLeft _ haccepted => exact hleft haccepted List.mem_cons_self
  | made => exact absurd rfl hrc

/-! ## Runs -/

/-- The open indexes and the description correspond one to one. -/
structure OneToOne (s : TableIndexes V A) : Prop where
  metas_eq : s.indexes.map OpenIndex.indexMeta = s.indexMetas
  names_nodup : (s.indexMetas.map IndexMeta.name).Nodup
  fields_nodup : (s.indexMetas.map IndexMeta.field).Nodup

/-- The states of a table that has been created with these fields, in a directory with these files.
In every run of `createIndex` that gets to the description, the description can be written. -/
inductive Reached (fields indexFiles : List String) : TableIndexes V A → Prop
  | created : Reached fields indexFiles ⟨fields, [], [], indexFiles, []⟩
  | createIndex {s : TableIndexes V A} (h : Reached fields indexFiles s) (rows : List (RID × V))
      (o : CreateOutcomes) (indexName attributeName : String)
      (hcond : s.Refused o indexName attributeName ∨ o.MetaWritten) :
      Reached fields indexFiles (s.createIndex column rows o indexName attributeName).2
  | insertEntry {s : TableIndexes V A} (h : Reached fields indexFiles s) (values : V) (rid : RID) :
      Reached fields indexFiles (s.insertEntry values rid).2
  | deleteEntry {s : TableIndexes V A} (h : Reached fields indexFiles s)
      (errorOnNotExists : Bool) (values : V) (rid : RID) :
      Reached fields indexFiles (s.deleteEntry errorOnNotExists values rid).2
  | openTable {s s' : TableIndexes V A} (h : Reached fields indexFiles s)
      (openTree : String → Except RC (Option (SortedSet (IndexKey A))))
      (hopen : s.openTable column openTree = .ok s') : Reached fields indexFiles s'

theorem length_insertEntryOfIndexes (trees : List (TableIndex V A)) (values : V) (rid : RID) :
    (insertEntryOfIndexes trees values rid).2.length = trees.length := by
  induction trees with
  | nil => rfl
  | cons tree trees ih =>
    rw [insertEntryOfIndexes]
    dsimp only
    split
    · rfl
    · simpa using ih

theorem length_deleteEntryOfIndexes (errorOnNotExists : Bool) (trees : List (TableIndex V A))
    (values : V) (rid : RID) :
    (deleteEntryOfIndexes errorOnNotExists trees values rid).2.length = trees.length := by
  induction trees with
  | nil => rfl
  | cons tree trees ih =>
    rw [deleteEntryOfIndexes.eq_def]
    dsimp only
    split
    · rfl
    · cases trees with
      | nil => rfl
      | cons => simpa using ih

theorem withTrees_metas {s : TableIndexes V A} {trees : List (TableIndex V A)}
    (h : trees.length = s.indexes.length) :
    (s.withTrees trees).indexes.map OpenIndex.indexMeta = s.indexes.map OpenIndex.indexMeta := by
  rw [withTrees]
  dsimp only
  generalize s.indexes = indexes at h ⊢
  induction indexes generalizing trees with
  | nil => rfl
  | cons index indexes ih =>
    cases trees with
    | nil => cases h
    | cons tree trees =>
      rw [List.zipWith_cons_cons, List.map_cons, ih (Nat.succ.inj h)]
      rfl

/-- The indexes that are opened are those of the description. By induction on these. -/
theorem openIndexes_metas {fields : List String}
    {openTree : String → Except RC (Option (SortedSet (IndexKey A)))} {metas : List IndexMeta}
    {indexes : List (OpenIndex V A)} (h : openIndexes column fields openTree metas = .ok indexes) :
    indexes.map OpenIndex.indexMeta = metas := by
  induction metas generalizing indexes with
  | nil =>
    cases h
    rfl
  | cons indexMeta metas ih =>
    rw [openIndexes] at h
    split at h
    · cases h
    · obtain ⟨entries, -, h⟩ := bind_inv h
      obtain ⟨rest, hrest, h⟩ := bind_inv h
      cases h
      rw [List.map_cons, ih hrest]

/-- The invariant of a run: the file of the description is the description. -/
structure InStep (s : TableIndexes V A) : Prop extends OneToOne s where
  metaFile_eq : s.metaFile = s.indexMetas

theorem InStep.withTrees {s : TableIndexes V A} (h : s.InStep) {trees : List (TableIndex V A)}
    (hlen : trees.length = s.indexes.length) : (s.withTrees trees).InStep :=
  { metas_eq := (withTrees_metas hlen).trans h.metas_eq
    names_nodup := h.names_nodup
    fields_nodup := h.fields_nodup
    metaFile_eq := h.metaFile_eq }

/-- A name that the description does not have. -/
theorem notMem_of_index {s : TableIndexes V A} {indexName : String} (h : s.index indexName = none) :
    indexName ∉ s.indexMetas.map IndexMeta.name := by
  intro hmem
  obtain ⟨indexMeta, hmem, hname⟩ := List.mem_map.mp hmem
  simpa [hname] using List.find?_eq_none.mp h indexMeta hmem

theorem notMem_of_metaByField {s : TableIndexes V A} {field : String}
    (h : s.metaByField field = none) : field ∉ s.indexMetas.map IndexMeta.field := by
  intro hmem
  obtain ⟨indexMeta, hmem, hfield⟩ := List.mem_map.mp hmem
  simpa [hfield] using List.find?_eq_none.mp h indexMeta hmem

theorem nodup_map_append {metas : List IndexMeta} {indexMeta : IndexMeta} {f : IndexMeta → String}
    (h : (metas.map f).Nodup) (hnew : f indexMeta ∉ metas.map f) :
    ((metas ++ [indexMeta]).map f).Nodup := by
  rw [List.map_append, List.nodup_append]
  refine ⟨h, List.nodup_singleton _, fun x hx y hy heq => ?_⟩
  rw [List.map_singleton, List.mem_singleton] at hy
  rw [heq, hy] at hx
  exact hnew hx

/-- A call keeps the invariant if the description can be written. -/
theorem InStep.created {s s' : TableIndexes V A} (h : s.InStep) {o : CreateOutcomes}
    {indexName attributeName : String} {rc : RC}
    (hcreated : Created s o indexName attributeName (rc, s'))
    (hcond : s.Refused o indexName attributeName ∨ o.MetaWritten) : s'.InStep := by
  cases hcreated with
  | refused => exact h
  | fileLeft => exact ⟨⟨h.metas_eq, h.names_nodup, h.fields_nodup⟩, h.metaFile_eq⟩
  | indexLeft tree haccepted hmeta =>
    exact absurd hcond (not_or.mpr ⟨accepted_iff.mp haccepted, hmeta⟩)
  | made tree haccepted hmeta =>
    have hname := notMem_of_index haccepted.newName
    have hfield := notMem_of_metaByField haccepted.newField
    refine ⟨⟨?_, ?_, ?_⟩, rfl⟩
    · rw [List.map_append, h.metas_eq]
      rfl
    · exact nodup_map_append h.names_nodup hname
    · exact nodup_map_append h.fields_nodup hfield

/-- By induction on the run. -/
theorem Reached.inStep {fields indexFiles : List String} {s : TableIndexes V A}
    (h : Reached column fields indexFiles s) : s.InStep := by
  induction h with
  | created => exact ⟨⟨rfl, List.nodup_nil, List.nodup_nil⟩, rfl⟩
  | @createIndex s _ rows o indexName attributeName hcond ih =>
    exact ih.created (createIndex_cases column s rows o indexName attributeName) hcond
  | insertEntry _ values rid ih =>
    refine ih.withTrees ?_
    rw [length_insertEntryOfIndexes, List.length_map]
  | deleteEntry _ errorOnNotExists values rid ih =>
    refine ih.withTrees ?_
    rw [length_deleteEntryOfIndexes, List.length_map]
  | openTable _ openTree hopen ih =>
    obtain ⟨indexes, hindexes, hopen⟩ := bind_inv hopen
    cases hopen
    have hmetas := openIndexes_metas column hindexes
    refine ⟨⟨hmetas, ?_, ?_⟩, rfl⟩
    · rw [ih.metaFile_eq]
      exact ih.names_nodup
    · rw [ih.metaFile_eq]
      exact ih.fields_nodup

/-- **A failed `CREATE INDEX`** leaves no trace if and only if it is refused: a check fails, or the
file of the index cannot be made. In every run in which a call that is not refused can write the
description, the open indexes and the description correspond one to one in all states. -/
theorem failed_create_index_iff :
    (∀ (s : TableIndexes V A) (rows : List (RID × V)) (o : CreateOutcomes)
      (indexName attributeName : String),
      (s.createIndex column rows o indexName attributeName).1 ≠ .success →
        (s.LeavesNoTrace column (s.createIndex column rows o indexName attributeName).2 indexName
          attributeName ↔ s.Refused o indexName attributeName)) ∧
    ∀ (fields indexFiles : List String) (s : TableIndexes V A),
      Reached column fields indexFiles s → s.OneToOne :=
  ⟨fun s rows o indexName attributeName hrc =>
    leavesNoTrace_iff column (createIndex_cases column s rows o indexName attributeName) hrc,
    fun _ _ _ h => (h.inStep column).toOneToOne⟩

/-- A table with one column of numbers and no index. -/
def plainTable : TableIndexes ℕ ℤ := ⟨["__trx", "id"], [], [], [], []⟩

/-- The temporary file of the description cannot be renamed. -/
def renameFails : CreateOutcomes := { CreateOutcomes.fine with rename := false }

/-- `CREATE INDEX i ON t (id)` when the file cannot be renamed, and in a run without errors. -/
theorem failed_create_index_rename :
    (plainTable.LeavesNoTrace (fun _ => numberColumn)
        (plainTable.createIndex (fun _ => numberColumn) [(⟨1, 0⟩, 7)] renameFails "i" "id").2 "i" "id" ↔
      plainTable.Refused renameFails "i" "id") ∧
    (plainTable.createIndex (fun _ => numberColumn) [(⟨1, 0⟩, 7)] .fine "i" "id").2.OneToOne := by
  have h := failed_create_index_iff (V := ℕ) (A := ℤ) (fun _ => numberColumn)
  refine ⟨h.1 plainTable _ renameFails "i" "id" (by decide), h.2 ["__trx", "id"] [] _ ?_⟩
  exact .createIndex .created _ _ _ _ (Or.inr ⟨rfl, rfl, rfl⟩)

/-- The call has failed, the index is open without being described, and a later call with the same
name and field fails because of the file. -/
theorem rename_leaves_trace :
    let r := plainTable.createIndex (fun _ => numberColumn) [(⟨1, 0⟩, 7)] renameFails "i" "id"
    r.1 = .ioerr ∧ ¬ plainTable.LeavesNoTrace (fun _ => numberColumn) r.2 "i" "id" ∧ ¬ r.2.OneToOne ∧
      (r.2.createIndex (fun _ => numberColumn) [(⟨1, 0⟩, 7)] .fine "i" "id").1 = .schemaDbExist := by
  refine ⟨by decide, fun h => ?_, fun h => ?_, by decide⟩
  · exact absurd (h.again [] (by decide)) (by decide)
  · exact absurd h.metas_eq (by decide)

end TableIndexes

end Miniob.Storage.Common
