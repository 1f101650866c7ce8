import Mathlib.Algebra.Order.BigOperators.Group.List
import Miniob.Storage.Meta.TableMeta

/-!
# The layout of the columns

`TableMeta::init` checks the offset of every column, but not the sum of all lengths, and nothing
checks that a record fits in a page.

* `placeFields`: the columns one behind the other, with exact sums.
* `initFields_spec`: these are the columns that a successful call makes, and the size of a record is
  the exact sum or negative.
* `ColumnLayout`: what the layout should be like. `column_layout_iff` says that it is like this if
  and only if the lengths add up to 16348 at most.
-/

namespace Miniob.Storage.Meta

open Miniob.Storage.Common Miniob.Storage.Record

variable {attributes : List AttrInfo} {fields : List FieldMeta} {name : String} {m : TableMeta}
  {off size : Int} {field : FieldMeta}

/-! ## Exact sums -/

/-- The length of the columns. -/
def totalLength (attributes : List AttrInfo) : ℕ := (attributes.map AttrInfo.length).sum

@[simp] theorem totalLength_nil : totalLength [] = 0 := rfl

@[simp] theorem totalLength_cons (a : AttrInfo) (attributes : List AttrInfo) :
    totalLength (a :: attributes) = a.length + totalLength attributes := by
  simp [totalLength]

theorem length_le_totalLength {a : AttrInfo} (h : a ∈ attributes) :
    a.length ≤ totalLength attributes :=
  List.single_le_sum (fun _ _ => Nat.zero_le _) _ (List.mem_map_of_mem h)

/-- The columns one behind the other. -/
def placeFields : Int → List AttrInfo → List FieldMeta
  | _, [] => []
  | off, a :: attributes =>
    ⟨cStr a.name, a.type, off, a.length, true⟩ :: placeFields (off + a.length) attributes

/-- The number is one that an `int` can have. The parser makes a `size_t` of such a number.
Source: `lex_sql.l`, `NUMBER`; `yacc_sql.y`, `attr_def` -/
def AttrInfo.FromNumber (a : AttrInfo) : Prop :=
  ∃ n : Int, -2147483648 ≤ n ∧ n ≤ 2147483647 ∧ (a.length : Int) = n % 18446744073709551616

/-- A length that an `int` can have is given as it is. -/
theorem AttrInfo.fromNumber_of_le {a : AttrInfo} (h : a.length ≤ 2147483647) : a.FromNumber :=
  ⟨a.length, by omega, by omega, by omega⟩

/-- The length that a column gets is that of the attribute, if it passes the check. -/
theorem AttrInfo.FromNumber.wrap32_eq {a : AttrInfo} (h : a.FromNumber)
    (hpos : 0 < wrap32 a.length) :
    wrap32 a.length = a.length ∧ (a.length : Int) ≤ 2147483647 := by
  obtain ⟨n, hlow, hhigh, hlength⟩ := h
  unfold wrap32 at hpos ⊢
  rw [Int.bmod_def] at hpos ⊢
  split at hpos <;> split <;> omega

/-- An `int` sum of two numbers that are not negative is exact or negative. -/
theorem wrap32_add {x y : Int} (hx : 0 ≤ x) (hx' : x ≤ 2147483647) (hy : 0 ≤ y)
    (hy' : y ≤ 2147483647) :
    x + y ≤ 2147483647 ∧ wrap32 (x + y) = x + y ∨ 2147483647 < x + y ∧ wrap32 (x + y) < 0 := by
  unfold wrap32
  rw [Int.bmod_def]
  split <;> omega

namespace TableMeta

/-- One turn of the loop. -/
theorem initFields_cons {a : AttrInfo}
    (h : initFields off (a :: attributes) = .ok (fields, size)) :
    ∃ field rest, FieldMeta.init a.name a.type off (wrap32 a.length) true = .ok field ∧
      initFields (wrap32 (off + a.length)) attributes = .ok (rest, size) ∧
        fields = field :: rest := by
  rw [initFields] at h
  obtain ⟨field, hfield, h⟩ := bind_inv h
  obtain ⟨⟨rest, size'⟩, hrest, h⟩ := bind_inv h
  cases h
  exact ⟨field, rest, hfield, hrest, rfl⟩

/-- A column cannot begin at a negative offset. -/
theorem initFields_neg (hneg : off < 0) (h : initFields off attributes = .ok (fields, size)) :
    attributes = [] := by
  cases attributes with
  | nil => rfl
  | cons a attributes =>
    obtain ⟨field, rest, hfield, -⟩ := initFields_cons h
    obtain ⟨-, -, hoff, -⟩ := FieldMeta.init_eq_ok_iff.mp hfield
    omega

/-- **The columns of a successful call.** By induction on the columns: a sum that does not fit is
negative, and then there is no further column. -/
theorem initFields_spec (hnumber : ∀ a ∈ attributes, a.FromNumber) (hoff : 0 ≤ off)
    (hoff' : off ≤ 2147483647) (h : initFields off attributes = .ok (fields, size)) :
    fields = placeFields off attributes ∧
      (∀ a ∈ attributes, isBlank (cStr a.name) = false ∧ a.type ≠ .undefined ∧ 0 < a.length ∧
        a.length ≤ 2147483647) ∧
      (off + totalLength attributes ≤ 2147483647 ∧ size = off + totalLength attributes ∨
        2147483647 < off + totalLength attributes ∧ size < 0) := by
  induction attributes generalizing off fields with
  | nil =>
    cases h
    refine ⟨rfl, List.forall_mem_nil _, Or.inl ⟨?_, ?_⟩⟩
    · simpa using hoff'
    · simp
  | cons a attributes ih =>
    obtain ⟨field, rest, hfield, hrest, rfl⟩ := initFields_cons h
    obtain ⟨hname, htype, -, hpos, rfl⟩ := FieldMeta.init_eq_ok_iff.mp hfield
    obtain ⟨hlen, hle⟩ := (hnumber a List.mem_cons_self).wrap32_eq hpos
    have hmem : isBlank (cStr a.name) = false ∧ a.type ≠ .undefined ∧ 0 < a.length ∧
        a.length ≤ 2147483647 := ⟨hname, htype, by omega, by omega⟩
    rw [totalLength_cons, placeFields, hlen]
    rcases wrap32_add hoff hoff' (by omega) hle with ⟨hfits, hsum⟩ | ⟨hbig, hneg⟩
    · rw [hsum] at hrest
      obtain ⟨rfl, hall, hsize⟩ :=
        ih (fun b hb => hnumber b (List.mem_cons_of_mem _ hb)) (by omega) hfits hrest
      refine ⟨rfl, List.forall_mem_cons.mpr ⟨hmem, hall⟩, ?_⟩
      push_cast
      omega
    · obtain rfl := initFields_neg hneg hrest
      cases hrest
      refine ⟨rfl, List.forall_mem_cons.mpr ⟨hmem, List.forall_mem_nil _⟩, Or.inr ⟨?_, hneg⟩⟩
      simpa using hbig

/-- A successful call of `TableMeta::init`. -/
theorem init_eq_ok (h : init name attributes = .ok m) :
    isBlank (cStr name) = false ∧ attributes ≠ [] ∧ ∃ fields size,
      initFields 4 attributes = .ok (fields, size) ∧
        m = ⟨cStr name, sysFields ++ fields, [], size⟩ := by
  unfold init at h
  split at h
  · cases h
  · rename_i hblank
    split at h
    · cases h
    · rename_i hne
      obtain ⟨⟨fields, size⟩, hfields, h⟩ := bind_inv h
      cases h
      exact ⟨by simpa using hblank, hne, fields, size, hfields, rfl⟩

end TableMeta

/-! ## The layout -/

/-- What `TableMeta::init` should make of the columns. -/
structure ColumnLayout (attributes : List AttrInfo) (m : TableMeta) : Prop where
  /-- No two columns share a byte. -/
  disjoint : m.fields.Pairwise fun f g => Disjoint f.bytes g.bytes
  /-- The columns lie in the record. -/
  within : ∀ f ∈ m.fields, f.bytes ⊆ Set.Ico 0 m.recordSize
  /-- The size of a record is the sum of the lengths. -/
  recordSize : m.recordSize = 4 + totalLength attributes
  /-- A record has bytes. -/
  positive : 0 < m.recordSize
  /-- The columns have the lengths and the offsets that exact sums give them. -/
  exact : m.fields = sysFields ++ placeFields 4 attributes
  /-- An `int` has room for each of the sums, the last one is the greatest. -/
  sums : (4 + totalLength attributes : Int) ≤ 2147483647

/-- A page has a slot for a record of this size. -/
def HoldsRecord (recordSize : Int) : Prop :=
  0 < recordSize ∧ 0 < pageRecordCapacity bpPageDataSize (align8 recordSize.toNat)

/-- A record of more than 16352 bytes does not fit in a page. -/
theorem holdsRecord_iff : HoldsRecord size ↔ 0 < size ∧ size ≤ 16352 := by
  unfold HoldsRecord
  rw [pageRecordCapacity_eq, align8_eq]
  refine and_congr_right fun hpos => ?_
  rw [Nat.div_pos_iff]
  omega

theorem placeFields_bounds (h : ∀ a ∈ attributes, 0 < a.length)
    (hfield : field ∈ placeFields off attributes) :
    off ≤ field.offset ∧ 0 < field.len ∧ field.offset + field.len ≤ off + totalLength attributes := by
  induction attributes generalizing off with
  | nil => cases hfield
  | cons a attributes ih =>
    obtain ⟨hpos, h⟩ := List.forall_mem_cons.mp h
    rw [totalLength_cons]
    rcases List.mem_cons.mp hfield with rfl | hfield
    · dsimp only
      omega
    · have := ih h hfield
      omega

/-- A column has the type of its attribute. -/
theorem placeFields_type (h : field ∈ placeFields off attributes) :
    ∃ a ∈ attributes, field.type = a.type := by
  induction attributes generalizing off with
  | nil => cases h
  | cons a attributes ih =>
    rcases List.mem_cons.mp h with rfl | h
    · exact ⟨a, List.mem_cons_self, rfl⟩
    · obtain ⟨b, hb, htype⟩ := ih h
      exact ⟨b, List.mem_cons_of_mem _ hb, htype⟩

/-- The columns lie one behind the other. -/
theorem placeFields_pairwise (h : ∀ a ∈ attributes, 0 < a.length) :
    (placeFields off attributes).Pairwise fun f g => f.offset + f.len ≤ g.offset := by
  induction attributes generalizing off with
  | nil => exact List.Pairwise.nil
  | cons a attributes ih =>
    obtain ⟨hpos, h⟩ := List.forall_mem_cons.mp h
    exact List.Pairwise.cons (fun g hg => (placeFields_bounds h hg).1) (ih h)

/-- The column of the transactions comes first. -/
theorem fields_pairwise (h : ∀ a ∈ attributes, 0 < a.length) :
    (sysFields ++ placeFields 4 attributes).Pairwise fun f g => f.offset + f.len ≤ g.offset := by
  refine List.Pairwise.cons (fun g hg => ?_) (placeFields_pairwise h)
  exact (placeFields_bounds h hg).1

/-- The layout is as it should be if the sums do not overflow. -/
theorem columnLayout_of_sums (h : TableMeta.init name attributes = .ok m)
    (hsums : (4 + totalLength attributes : Int) ≤ 2147483647) : ColumnLayout attributes m := by
  have hnumber : ∀ a ∈ attributes, a.FromNumber := by
    intro a ha
    have hle := length_le_totalLength ha
    exact AttrInfo.fromNumber_of_le (by omega)
  obtain ⟨-, -, fields, size, hfields, rfl⟩ := TableMeta.init_eq_ok h
  obtain ⟨rfl, hall, hsize⟩ :=
    TableMeta.initFields_spec hnumber (by decide) (by decide) hfields
  have hpos : ∀ a ∈ attributes, 0 < a.length := fun a ha => (hall a ha).2.2.1
  have hsize : size = 4 + totalLength attributes := by omega
  refine ⟨?_, ?_, hsize, by dsimp only; omega, rfl, hsums⟩
  · refine (fields_pairwise hpos).imp fun hfg => ?_
    exact Set.Ico_disjoint_Ico.mpr (by omega)
  · intro f hf
    have hbounds : 0 ≤ f.offset ∧ f.offset + f.len ≤ 4 + totalLength attributes := by
      rcases List.mem_cons.mp hf with rfl | hf
      · dsimp only [trxField]
        omega
      · have := placeFields_bounds hpos hf
        omega
    rw [hsize]
    exact Set.Ico_subset_Ico hbounds.1 hbounds.2

/-- A table that is made has the description that `TableMeta::init` gives it. -/
theorem createTable_eq_ok {o : CreateTableOutcomes} (h : createTable o name attributes = .ok m) :
    TableMeta.init name attributes = .ok m := by
  unfold createTable at h
  split_ifs at h
  all_goals
    obtain ⟨m', hm, h⟩ := bind_inv h
    cases h
  exact hm

/-- If nothing else goes wrong, the table is made. -/
theorem createTable_of_init (h : TableMeta.init name attributes = .ok m) :
    createTable ⟨.success, true, .success, .success⟩ name attributes = .ok m := by
  obtain ⟨hname, hne, -⟩ := TableMeta.init_eq_ok h
  unfold createTable
  rw [if_neg (by simp [hname]), if_neg hne, if_neg (by simp), h]
  rfl

/-- **The layout of a table that is accepted.** It is as it should be, and a table that is made has
room for a record in a page, if and only if the lengths add up to 16348 at most. -/
theorem column_layout_iff (h : TableMeta.init name attributes = .ok m) :
    (ColumnLayout attributes m ∧
      ∀ o m', createTable o name attributes = .ok m' → HoldsRecord m'.recordSize) ↔
        totalLength attributes ≤ 16348 := by
  constructor
  · rintro ⟨hlayout, hholds⟩
    have := (holdsRecord_iff.mp (hholds _ m (createTable_of_init h))).2
    have := hlayout.recordSize
    omega
  · intro hle
    have hlayout := columnLayout_of_sums h (by omega)
    refine ⟨hlayout, fun o m' hm' => holdsRecord_iff.mpr ?_⟩
    have hm' := createTable_eq_ok hm'
    rw [h] at hm'
    cases hm'
    have := hlayout.recordSize
    omega

/-- A column that fills the page. -/
theorem column_layout_page : TableMeta.init "t" [⟨.chars, "a", 16348⟩] =
      .ok ⟨"t", [trxField, ⟨"a", .chars, 4, 16348, true⟩], [], 16352⟩ ∧
    ColumnLayout [⟨.chars, "a", 16348⟩]
      ⟨"t", [trxField, ⟨"a", .chars, 4, 16348, true⟩], [], 16352⟩ :=
  have hinit : TableMeta.init "t" [⟨.chars, "a", 16348⟩] =
      .ok ⟨"t", [trxField, ⟨"a", .chars, 4, 16348, true⟩], [], 16352⟩ := by decide
  ⟨hinit, ((column_layout_iff hinit).mpr (by decide)).1⟩

/-- The greatest length: the size of a record is negative. -/
theorem column_layout_overflow : ∃ m,
    TableMeta.init "t" [⟨.chars, "a", 2147483647⟩] = .ok m ∧
      ¬ ColumnLayout [⟨.chars, "a", 2147483647⟩] m := by
  refine ⟨⟨"t", [trxField, ⟨"a", .chars, 4, 2147483647, true⟩], [], -2147483645⟩, by decide, ?_⟩
  intro hlayout
  have hsums := hlayout.sums
  exact absurd hsums (by decide)

end Miniob.Storage.Meta
