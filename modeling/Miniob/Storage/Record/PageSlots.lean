import Miniob.Storage.Record.PageBytes
import Mathlib.Data.List.Find

/-!
# A page of records is a slot map

* `BytePage.bitmap_setBit`, `recordData_setBit`, `bitmap_copyRecord`, `recordData_copyRecord`: what
  the changes of the bytes do to the bitmap and to the slots.
* `Agrees`: the page has the records of a slot map.
* `Agrees.step`: one operation on both.
* `page_is_slot_map`: all runs of operations on a new page.
-/

namespace Miniob.Storage.Record

open Miniob.Common

/-- The slots of a new page lie in the page. -/
def SlotsFit (recordSize : ℕ) : Prop :=
  ∀ i < (PageHeader.initEmptyPage recordSize).recordCapacity,
    (PageHeader.initEmptyPage recordSize).getRecordData i + recordSize ≤ bpPageDataSize

/-- What the places in a page have to keep to: the slots lie behind the bitmap, one behind the
other, and in the page. -/
structure SlotLayout (h : PageHeader) : Prop where
  bitmap : pageFixSize + pageBitmapSize h.recordCapacity ≤ h.firstRecordOffset
  size : h.recordRealSize ≤ h.recordSize
  fits : ∀ i < h.recordCapacity, h.getRecordData i + h.recordRealSize ≤ bpPageDataSize

theorem slotLayout_initEmptyPage {recordSize : ℕ} (hfits : SlotsFit recordSize) :
    SlotLayout (PageHeader.initEmptyPage recordSize) :=
  ⟨le_align8 _, le_align8 _, hfits⟩

namespace SlotLayout

variable {h : PageHeader} {i j k : ℕ}

/-- The byte of a bit lies before all slots. -/
theorem bit_lt (hl : SlotLayout h) (hi : i < h.recordCapacity) :
    pageFixSize + i / 8 < h.getRecordData j := by
  have hbitmap := hl.bitmap
  have hsize : i / 8 < pageBitmapSize h.recordCapacity := by
    unfold pageBitmapSize
    split <;> omega
  unfold PageHeader.getRecordData
  omega

/-- Two slots have no byte in common. -/
theorem disjoint (hl : SlotLayout h) (hij : i ≠ j) (hk : k < h.recordRealSize) :
    h.getRecordData i + k < h.getRecordData j ∨
      h.getRecordData j + h.recordRealSize ≤ h.getRecordData i + k := by
  have hsize := hl.size
  have hnext : ∀ {a b : ℕ}, a < b → h.getRecordData a + h.recordSize ≤ h.getRecordData b := by
    intro a b hab
    have hmul := Nat.mul_le_mul_left h.recordSize (Nat.succ_le_of_lt hab)
    rw [Nat.mul_succ] at hmul
    unfold PageHeader.getRecordData
    omega
  rcases Nat.lt_or_gt_of_ne hij with hlt | hgt
  · have := hnext hlt
    omega
  · have := hnext hgt
    omega

end SlotLayout

/-! ## Bits and bytes -/

namespace BytePage

variable {page : BytePage} {i j : ℕ} {src : ℕ → Byte}

/-- The bits after a byte of the bitmap has been changed. -/
theorem bitmap_setBitmapByte (page : BytePage) {index : ℕ} {byte : Byte} {value : Bool}
    (hbyte : ∀ k < 8, byte.getLsbD k =
      if k = index % 8 then value else (page.data (pageFixSize + index / 8)).getLsbD k) :
    (page.setBitmapByte (index / 8) byte).bitmap = Function.update page.bitmap index value := by
  funext j
  have hj := Nat.mod_lt j (show 0 < 8 by decide)
  show (Function.update page.data _ byte (pageFixSize + j / 8)).getLsbD (j % 8) = _
  by_cases hdiv : j / 8 = index / 8
  · rw [hdiv, Function.update_self, hbyte _ hj]
    by_cases hmod : j % 8 = index % 8
    · obtain rfl : j = index := by omega
      rw [if_pos rfl, Function.update_self]
    · rw [if_neg hmod, Function.update_of_ne fun heq => hmod (by rw [heq]), ← hdiv]
      rfl
  · rw [Function.update_of_ne (by omega), Function.update_of_ne fun heq => hdiv (by rw [heq])]
    rfl

theorem bitmap_setBit (page : BytePage) (index : ℕ) :
    (page.setBit index).bitmap = Function.update page.bitmap index true := by
  refine bitmap_setBitmapByte page fun k hk => ?_
  rw [BitVec.getLsbD_or, BitVec.getLsbD_twoPow]
  by_cases hmod : k = index % 8
  · simp [hmod, Nat.mod_lt]
  · simp [hmod, Ne.symm hmod]

theorem bitmap_clearBit (page : BytePage) (index : ℕ) :
    (page.clearBit index).bitmap = Function.update page.bitmap index false := by
  refine bitmap_setBitmapByte page fun k hk => ?_
  rw [BitVec.getLsbD_and, BitVec.getLsbD_not, BitVec.getLsbD_twoPow]
  by_cases hmod : k = index % 8
  · simp [hmod, Nat.mod_lt]
  · simp [hmod, Ne.symm hmod, hk]

/-- A change of the bitmap leaves the slots as they are. -/
theorem recordData_setBitmapByte (hl : SlotLayout page.header) (hi : i < page.header.recordCapacity)
    (byte : Byte) : (page.setBitmapByte (i / 8) byte).recordData j = page.recordData j := by
  have hbit := hl.bit_lt (j := j) hi
  refine List.map_congr_left fun k _ => ?_
  show Function.update page.data _ byte (page.header.getRecordData j + k) = _
  exact Function.update_of_ne (by omega) _ _

/-- A record is copied inside the page. -/
theorem copyRecord_eq_some {page' : BytePage} (hcopy : page.copyRecord j src = some page') :
    page' = ⟨page.header,
      memcpy page.data (page.header.getRecordData j) src page.header.recordRealSize⟩ := by
  unfold copyRecord at hcopy
  split at hcopy
  · exact (Option.some.inj hcopy).symm
  · cases hcopy

/-- A record that is copied leaves the bitmap as it is. -/
theorem bitmap_copyRecord {page' : BytePage} (hl : SlotLayout page.header)
    (hcopy : page.copyRecord j src = some page') (hi : i < page.header.recordCapacity) :
    page'.bitmap i = page.bitmap i := by
  have hbit := hl.bit_lt (j := j) hi
  obtain rfl := copyRecord_eq_some hcopy
  show (memcpy page.data _ src _ (pageFixSize + i / 8)).getLsbD (i % 8) = _
  rw [memcpy, if_neg (by omega)]
  rfl

/-- The slot has the record that has been copied, and the other slots have what they had. -/
theorem recordData_copyRecord {page' : BytePage} (hl : SlotLayout page.header)
    (hcopy : page.copyRecord j src = some page') (i : ℕ) :
    page'.recordData i =
      if i = j then SlotMap.recordOf page.header.recordRealSize src else page.recordData i := by
  obtain rfl := copyRecord_eq_some hcopy
  by_cases hij : i = j
  · rw [if_pos hij, hij]
    refine List.map_congr_left fun k hk => ?_
    have hk : k < page.header.recordRealSize := List.mem_range.mp hk
    show memcpy page.data _ src _ (page.header.getRecordData j + k) = _
    rw [memcpy, if_pos (by omega), Nat.add_sub_cancel_left]
  · rw [if_neg hij]
    refine List.map_congr_left fun k hk => ?_
    have := hl.disjoint hij (List.mem_range.mp hk)
    show memcpy page.data _ src _ (page.header.getRecordData i + k) = _
    exact if_neg (by omega)

theorem header_copyRecord {page' : BytePage} (hcopy : page.copyRecord j src = some page') :
    page'.header = page.header := by
  rw [copyRecord_eq_some hcopy]

/-- A slot of the page can be written. -/
theorem exists_copyRecord (hl : SlotLayout page.header) (hj : j < page.header.recordCapacity)
    (src : ℕ → Byte) : ∃ page', page.copyRecord j src = some page' :=
  ⟨_, if_pos (hl.fits j hj)⟩

end BytePage

/-! ## The slot map of a page -/

namespace SlotMap

variable {m : SlotMap} {capacity i : ℕ} {bytes : List Byte}

theorem mem_taken : i ∈ m.taken capacity ↔ i < capacity ∧ (m i).isSome := by
  unfold taken
  rw [Finset.mem_filter, Finset.mem_range]

/-- The lowest free slot. -/
theorem lowestFree_eq_some (h : m.lowestFree capacity = some i) : i < capacity ∧ m i = none := by
  unfold lowestFree at h
  rw [List.find?_range_eq_some] at h
  exact ⟨List.mem_range.mp h.2.1, of_decide_eq_true h.1⟩

theorem card_taken_le (m : SlotMap) (capacity : ℕ) : (m.taken capacity).card ≤ capacity := by
  refine (Finset.card_filter_le _ _).trans ?_
  rw [Finset.card_range]

/-- All slots are taken if none is free. -/
theorem card_taken_of_none (h : m.lowestFree capacity = none) :
    (m.taken capacity).card = capacity := by
  unfold lowestFree at h
  rw [List.find?_range_eq_none] at h
  unfold taken
  rw [Finset.filter_true_of_mem, Finset.card_range]
  intro i hi
  have := h i (Finset.mem_range.mp hi)
  simpa [Option.isSome_iff_ne_none] using this

/-- A record in a free slot takes one more slot. -/
theorem card_taken_insert (hi : i < capacity) (hfree : m i = none) :
    (taken (Function.update m i (some bytes)) capacity).card = (m.taken capacity).card + 1 := by
  have heq : taken (Function.update m i (some bytes)) capacity =
      Insert.insert i (m.taken capacity) := by
    ext j
    rw [Finset.mem_insert, mem_taken, mem_taken]
    by_cases hj : j = i
    · subst hj
      simp [hi]
    · simp [hj]
  rw [heq, Finset.card_insert_of_notMem (by simp [mem_taken, hfree])]

/-- Another record in a slot that is taken. -/
theorem taken_update (hfull : m i ≠ none) :
    taken (Function.update m i (some bytes)) capacity = m.taken capacity := by
  ext j
  rw [mem_taken, mem_taken]
  by_cases hj : j = i
  · subst hj
    simp [Option.isSome_iff_ne_none, hfull]
  · simp [hj]

/-- A record that is taken out frees its slot. -/
theorem taken_delete :
    taken (Function.update m i none) capacity = (m.taken capacity).erase i := by
  ext j
  rw [Finset.mem_erase, mem_taken, mem_taken]
  by_cases hj : j = i
  · subst hj
    simp
  · simp [hj]

end SlotMap

/-- The page has the records of the map, and the header `h` but for the number of records. -/
structure Agrees (h : PageHeader) (page : BytePage) (m : SlotMap) : Prop where
  header : page.header = { h with recordNum := (m.taken h.recordCapacity).card }
  bit : ∀ i < h.recordCapacity, page.bitmap i = (m i).isSome
  record : ∀ i bytes, m i = some bytes → i < h.recordCapacity ∧ page.recordData i = bytes

namespace Agrees

variable {h : PageHeader} {page page' : BytePage} {m : SlotMap} {i j : ℕ} {bytes : List Byte}
  {src : ℕ → Byte}

theorem layout (ha : Agrees h page m) (hl : SlotLayout h) : SlotLayout page.header := by
  rw [ha.header]
  exact ⟨hl.bitmap, hl.size, hl.fits⟩

theorem capacity (ha : Agrees h page m) : page.header.recordCapacity = h.recordCapacity := by
  rw [ha.header]

theorem realSize (ha : Agrees h page m) : page.header.recordRealSize = h.recordRealSize := by
  rw [ha.header]

/-- The bit of a slot says whether the map has a record there. -/
theorem bit_iff (ha : Agrees h page m) (hi : i < h.recordCapacity) :
    page.bitmap i = true ↔ m i ≠ none := by
  rw [ha.bit i hi, Option.isSome_iff_ne_none]

/-- The search of the bitmap finds the lowest free slot. -/
theorem nextUnsettedBit_eq (ha : Agrees h page m) :
    nextUnsettedBit page.bitmap page.header.recordCapacity 0 = m.lowestFree h.recordCapacity := by
  rw [nextUnsettedBit, nextBit_eq (Or.inl rfl), ha.capacity]
  unfold SlotMap.lowestFree
  refine List.find?_congr fun i hi => ?_
  rw [ha.bit i (List.mem_range.mp hi)]
  simp

/-- The number of records is the number of bits that are set. -/
theorem recordNum_eq (ha : Agrees h page m) :
    page.header.recordNum = bitCount page.bitmap h.recordCapacity := by
  rw [ha.header]
  show (m.taken h.recordCapacity).card = bitCount page.bitmap h.recordCapacity
  unfold bitCount
  refine congrArg Finset.card ?_
  ext i
  rw [SlotMap.mem_taken, Finset.mem_filter, Finset.mem_range]
  constructor
  · rintro ⟨hi, hsome⟩
    exact ⟨hi, by rw [ha.bit i hi, hsome]⟩
  · rintro ⟨hi, hbit⟩
    exact ⟨hi, by rw [← ha.bit i hi, hbit]⟩

/-- A record is written to a slot. -/
theorem write (ha : Agrees h page m) (hj : j < h.recordCapacity)
    (hheader : page'.header = { h with
      recordNum := (SlotMap.taken (Function.update m j (some bytes)) h.recordCapacity).card })
    (hbit : ∀ i < h.recordCapacity, page'.bitmap i = Function.update page.bitmap j true i)
    (hdata : ∀ i, page'.recordData i = if i = j then bytes else page.recordData i) :
    Agrees h page' (Function.update m j (some bytes)) where
  header := hheader
  bit i hi := by
    rw [hbit i hi]
    by_cases hij : i = j
    · subst hij
      simp
    · rw [Function.update_of_ne hij, Function.update_of_ne hij, ha.bit i hi]
  record i b hb := by
    by_cases hij : i = j
    · subst hij
      rw [Function.update_self] at hb
      rw [hdata, if_pos rfl]
      exact ⟨hj, Option.some.inj hb⟩
    · rw [Function.update_of_ne hij] at hb
      rw [hdata, if_neg hij]
      exact ha.record i b hb

/-- A slot is freed. -/
theorem free (ha : Agrees h page m)
    (hheader : page'.header = { h with
      recordNum := (SlotMap.taken (Function.update m j none) h.recordCapacity).card })
    (hbit : ∀ i < h.recordCapacity, page'.bitmap i = Function.update page.bitmap j false i)
    (hdata : ∀ i ≠ j, page'.recordData i = page.recordData i) :
    Agrees h page' (Function.update m j none) where
  header := hheader
  bit i hi := by
    rw [hbit i hi]
    by_cases hij : i = j
    · subst hij
      simp
    · rw [Function.update_of_ne hij, Function.update_of_ne hij, ha.bit i hi]
  record i b hb := by
    by_cases hij : i = j
    · subst hij
      rw [Function.update_self] at hb
      cases hb
    · rw [Function.update_of_ne hij] at hb
      rw [hdata i hij]
      exact ha.record i b hb

/-- An operation answers as the map does and leaves a page that agrees with the map. -/
def StepAgrees (h : PageHeader) (result : Option PageResult) (p : SlotAnswer × SlotMap)
    (disposed : Bool) : Prop :=
  ∃ r, result = some r ∧ r.answer = p.1 ∧ Agrees h r.page p.2 ∧ r.disposed = disposed

/-- `insert_record` -/
theorem insertRecord (ha : Agrees h page m) (hl : SlotLayout h) (src : ℕ → Byte) :
    StepAgrees h (page.insertRecord src)
      (m.insert h.recordCapacity (SlotMap.recordOf h.recordRealSize src)) false := by
  have hnext := ha.nextUnsettedBit_eq
  have hnum : page.header.recordNum = (m.taken h.recordCapacity).card := by rw [ha.header]
  unfold BytePage.insertRecord SlotMap.insert
  cases hfree : m.lowestFree h.recordCapacity with
  | none =>
    rw [if_pos (by rw [hnum, ha.capacity, SlotMap.card_taken_of_none hfree])]
    exact ⟨_, rfl, rfl, ha, rfl⟩
  | some i =>
    obtain ⟨hi, hnone⟩ := SlotMap.lowestFree_eq_some hfree
    have hcard := @SlotMap.card_taken_insert m _ i (SlotMap.recordOf h.recordRealSize src) hi hnone
    have hlt : (m.taken h.recordCapacity).card < h.recordCapacity := by
      have := SlotMap.card_taken_le (Function.update m i
        (some (SlotMap.recordOf h.recordRealSize src))) h.recordCapacity
      omega
    rw [if_neg (by rw [hnum, ha.capacity]; omega), hnext, hfree, Option.bind_some]
    obtain ⟨page₁, hpage₁⟩ : ∃ page₁, page₁ =
      (page.setBit i).setRecordNum (page.header.recordNum + 1) := ⟨_, rfl⟩
    have hl₁ : SlotLayout page₁.header := by
      subst hpage₁
      exact ⟨(ha.layout hl).bitmap, (ha.layout hl).size, (ha.layout hl).fits⟩
    have hcap₁ : page₁.header.recordCapacity = h.recordCapacity := by
      subst hpage₁
      exact ha.capacity
    obtain ⟨page', hcopy⟩ := BytePage.exists_copyRecord hl₁ (hcap₁ ▸ hi) src
    dsimp only
    rw [← hpage₁, hcopy]
    refine ⟨page'.answer (.slot i), rfl, rfl, ha.write hi ?_ ?_ ?_, rfl⟩
    · show page'.header = _
      rw [BytePage.header_copyRecord hcopy, hcard, ← hnum, hpage₁]
      show { page.header with recordNum := page.header.recordNum + 1 } = _
      rw [ha.header]
    · intro k hk
      show page'.bitmap k = _
      rw [BytePage.bitmap_copyRecord hl₁ hcopy (hcap₁ ▸ hk), hpage₁, ← BytePage.bitmap_setBit]
      rfl
    · intro k
      show page'.recordData k = _
      rw [BytePage.recordData_copyRecord hl₁ hcopy]
      split
      · rw [hpage₁]
        exact congrArg (SlotMap.recordOf · src) ha.realSize
      · rw [hpage₁]
        exact BytePage.recordData_setBitmapByte (ha.layout hl) (ha.capacity ▸ hi) _

/-- `update_record` -/
theorem updateRecord (ha : Agrees h page m) (hl : SlotLayout h) (i : ℕ) (src : ℕ → Byte) :
    StepAgrees h (page.updateRecord i src)
      (m.update h.recordCapacity i (SlotMap.recordOf h.recordRealSize src)) false := by
  unfold BytePage.updateRecord SlotMap.update
  rw [ha.capacity]
  by_cases hle : h.recordCapacity ≤ i
  · rw [if_pos hle, if_pos hle]
    exact ⟨_, rfl, rfl, ha, rfl⟩
  have hi := not_le.mp hle
  rw [if_neg hle, if_neg hle]
  by_cases hnone : m i = none
  · rw [if_pos (mt (ha.bit_iff hi).mp (not_not.mpr hnone)), if_pos hnone]
    exact ⟨_, rfl, rfl, ha, rfl⟩
  rw [if_neg (not_not.mpr ((ha.bit_iff hi).mpr hnone)), if_neg hnone]
  obtain ⟨page', hcopy⟩ := BytePage.exists_copyRecord (ha.layout hl) (ha.capacity ▸ hi) src
  have hheader := BytePage.header_copyRecord hcopy
  rw [hcopy]
  refine ⟨(page'.setBit i).answer .done, rfl, rfl, ha.write hi ?_ ?_ ?_, rfl⟩
  · show page'.header = _
    rw [hheader, SlotMap.taken_update hnone, ha.header]
  · intro k hk
    show (page'.setBit i).bitmap k = _
    rw [BytePage.bitmap_setBit]
    by_cases hki : k = i
    · rw [hki, Function.update_self, Function.update_self]
    · rw [Function.update_of_ne hki, Function.update_of_ne hki,
        BytePage.bitmap_copyRecord (ha.layout hl) hcopy (ha.capacity ▸ hk)]
  · intro k
    show (page'.setBit i).recordData k = _
    unfold BytePage.setBit
    rw [BytePage.recordData_setBitmapByte (hheader ▸ ha.layout hl) (hheader ▸ ha.capacity ▸ hi),
      BytePage.recordData_copyRecord (ha.layout hl) hcopy, ha.realSize]

/-- `delete_record` -/
theorem deleteRecord (ha : Agrees h page m) (hl : SlotLayout h) (i : ℕ) :
    StepAgrees h (page.deleteRecord i) (m.delete h.recordCapacity i)
      (m.empties h.recordCapacity (.delete i)) := by
  unfold BytePage.deleteRecord SlotMap.delete SlotMap.empties
  rw [ha.capacity]
  by_cases hle : h.recordCapacity ≤ i
  · rw [if_pos hle, if_pos hle]
    refine ⟨_, rfl, rfl, ha, ?_⟩
    simp [SlotMap.mem_taken, not_lt.mpr hle, BytePage.answer]
  have hi := not_le.mp hle
  rw [if_neg hle, if_neg hle]
  by_cases hnone : m i = none
  · rw [if_neg (mt (ha.bit_iff hi).mp (not_not.mpr hnone)), if_pos hnone]
    refine ⟨_, rfl, rfl, ha, ?_⟩
    simp [SlotMap.mem_taken, hnone, BytePage.answer]
  rw [if_pos ((ha.bit_iff hi).mpr hnone), if_neg hnone]
  have hmem : i ∈ m.taken h.recordCapacity :=
    SlotMap.mem_taken.mpr ⟨hi, Option.isSome_iff_ne_none.mpr hnone⟩
  have hnum : page.header.recordNum - 1 =
      (SlotMap.taken (Function.update m i none) h.recordCapacity).card := by
    rw [SlotMap.taken_delete, Finset.card_erase_of_mem hmem, ha.header]
  refine ⟨_, rfl, rfl, ha.free ?_ ?_ ?_, ?_⟩
  · show { page.header with recordNum := page.header.recordNum - 1 } = _
    rw [hnum, ha.header]
  · exact fun k _ => congrFun (BytePage.bitmap_clearBit page i) k
  · exact fun k _ => BytePage.recordData_setBitmapByte (ha.layout hl) (ha.capacity ▸ hi) _
  · show decide (page.header.recordNum - 1 = 0) = _
    rw [hnum, SlotMap.taken_delete, Finset.card_erase_of_mem hmem]
    have hpos := Finset.card_pos.mpr ⟨i, hmem⟩
    rw [decide_eq_decide]
    constructor
    · intro hzero
      exact ⟨hmem, by omega⟩
    · rintro ⟨-, hone⟩
      omega

/-- `get_record` -/
theorem getRecord (ha : Agrees h page m) (i : ℕ) :
    StepAgrees h (page.getRecord i) (m.get h.recordCapacity i, m) false := by
  unfold BytePage.getRecord SlotMap.get
  rw [ha.capacity]
  by_cases hle : h.recordCapacity ≤ i
  · rw [if_pos hle, if_pos hle]
    exact ⟨_, rfl, rfl, ha, rfl⟩
  have hi := not_le.mp hle
  rw [if_neg hle, if_neg hle]
  cases hmi : m i with
  | none =>
    rw [if_pos (mt (ha.bit_iff hi).mp (not_not.mpr hmi))]
    exact ⟨_, rfl, rfl, ha, rfl⟩
  | some bytes =>
    rw [if_neg (not_not.mpr ((ha.bit_iff hi).mpr (by rw [hmi]; nofun)))]
    refine ⟨_, rfl, ?_, ha, rfl⟩
    show SlotAnswer.record (page.recordData i) = .record bytes
    rw [(ha.record i bytes hmi).2]

/-- One operation on the page and on the map. -/
theorem step (ha : Agrees h page m) (hl : SlotLayout h) :
    ∀ op, StepAgrees h (page.step op) (m.step h.recordCapacity h.recordRealSize op)
      (m.empties h.recordCapacity op)
  | .insert src => ha.insertRecord hl src
  | .update i src => ha.updateRecord hl i src
  | .delete i => ha.deleteRecord hl i
  | .get i => ha.getRecord i

/-- A run of operations on the page and on the map. -/
theorem run (hl : SlotLayout h) (ops : List SlotOp) : ∀ {page : BytePage} {m : SlotMap},
    Agrees h page m → ∃ answers page' m', BytePage.run ops page = some (answers, page') ∧
      SlotMap.run h.recordCapacity h.recordRealSize ops m = (answers, m') ∧ Agrees h page' m' := by
  induction ops with
  | nil => exact fun {page m} ha => ⟨[], page, m, rfl, rfl, ha⟩
  | cons op ops ih =>
    intro page m ha
    obtain ⟨r, hstep, hanswer, hagrees, hdisposed⟩ := ha.step hl op
    unfold BytePage.run SlotMap.run
    rw [hstep, ← hdisposed, Option.bind_some]
    cases r.disposed with
    | true => exact ⟨_, _, _, rfl, by rw [if_pos rfl, hanswer], hagrees⟩
    | false =>
      obtain ⟨answers, page', m', hrun, hrun', hagrees'⟩ := ih hagrees
      refine ⟨r.answer :: answers, page', m', ?_, ?_, hagrees'⟩
      · rw [if_neg Bool.false_ne_true, hrun]
        rfl
      · dsimp only
        rw [if_neg Bool.false_ne_true, hrun', hanswer]

end Agrees

/-- A new page has no records. -/
theorem agrees_initEmptyPage (before : ℕ → Byte) (recordSize : ℕ) :
    Agrees (PageHeader.initEmptyPage recordSize) (BytePage.initEmptyPage before recordSize)
      fun _ => none where
  header := by simp [BytePage.initEmptyPage, PageHeader.initEmptyPage, SlotMap.taken]
  bit i hi := by
    have hbyte : i / 8 < pageBitmapSize (PageHeader.initEmptyPage recordSize).recordCapacity := by
      unfold pageBitmapSize
      split <;> omega
    show (if _ then (0 : Byte) else _).getLsbD (i % 8) = false
    rw [if_pos ⟨Nat.le_add_right _ _, Nat.add_lt_add_left hbyte _⟩]
    exact BitVec.getLsbD_zero
  record := nofun

/-- The slot that an operation names. -/
def SlotOp.slot : SlotOp → Option ℕ
  | .insert _ => none
  | .update slotNum _ | .delete slotNum | .get slotNum => some slotNum

/-- An operation on a slot map leaves the records of the other slots. -/
theorem SlotMap.step_of_ne {m : SlotMap} {capacity size i : ℕ} {op : SlotOp} (hi : m i ≠ none)
    (hop : op.slot ≠ some i) : (m.step capacity size op).2 i = m i := by
  cases op with
  | insert src =>
    show (m.insert capacity (recordOf size src)).2 i = m i
    unfold insert
    split
    · rfl
    · rename_i j hfree
      refine Function.update_of_ne ?_ _ _
      rintro rfl
      exact hi (lowestFree_eq_some hfree).2
  | update j src =>
    have hij : i ≠ j := fun heq => hop (by rw [heq]; rfl)
    show (m.update capacity j (recordOf size src)).2 i = m i
    unfold update
    split_ifs
    · rfl
    · rfl
    · exact Function.update_of_ne hij _ _
  | delete j =>
    have hij : i ≠ j := fun heq => hop (by rw [heq]; rfl)
    show (m.delete capacity j).2 i = m i
    unfold delete
    split_ifs
    · rfl
    · rfl
    · exact Function.update_of_ne hij _ _
  | get j => rfl

/-- The page has a record in the slot. -/
def BytePage.live (page : BytePage) (slotNum : ℕ) : Prop :=
  slotNum < page.header.recordCapacity ∧ page.bitmap slotNum = true

/-- What holds of a page and the slot map that stands for its history. -/
structure IsSlotMap (recordSize : ℕ) (page : BytePage) (m : SlotMap) : Prop where
  /-- `record_num` is the number of bits that are set below `record_capacity`. -/
  recordNum : page.header.recordNum = bitCount page.bitmap page.header.recordCapacity
  /-- The slots in use are those of the map, and they have its records. -/
  records : ∀ i bytes, m i = some bytes ↔ page.live i ∧ page.recordData i = bytes
  /-- The next operation returns, and answers as the map does. -/
  answers : ∀ op, ∃ r, page.step op = some r ∧
    r.answer = (m.step page.header.recordCapacity recordSize op).1
  /-- The next operation leaves the other slots in use as they are. -/
  frame : ∀ op r i, page.step op = some r → page.live i → op.slot ≠ some i →
    r.page.live i ∧ r.page.recordData i = page.recordData i

theorem Agrees.isSlotMap {h : PageHeader} {page : BytePage} {m : SlotMap} (ha : Agrees h page m)
    (hl : SlotLayout h) : IsSlotMap h.recordRealSize page m where
  recordNum := by
    rw [ha.capacity]
    exact ha.recordNum_eq
  records i bytes := by
    constructor
    · intro hi
      obtain ⟨hlt, hdata⟩ := ha.record i bytes hi
      exact ⟨⟨ha.capacity ▸ hlt, (ha.bit_iff hlt).mpr (by rw [hi]; nofun)⟩, hdata⟩
    · rintro ⟨⟨hlt, hbit⟩, rfl⟩
      obtain ⟨b, hb⟩ := Option.ne_none_iff_exists'.mp ((ha.bit_iff (ha.capacity ▸ hlt)).mp hbit)
      rw [hb, (ha.record i b hb).2]
  answers op := by
    obtain ⟨r, hstep, hanswer, -, -⟩ := ha.step hl op
    exact ⟨r, hstep, by rw [ha.capacity, hanswer]⟩
  frame op r i hstep := by
    rintro ⟨hlt, hbit⟩ hop
    obtain ⟨r', hstep', -, ha', -⟩ := ha.step hl op
    obtain rfl := Option.some.inj (hstep'.symm.trans hstep)
    have hi := (ha.bit_iff (ha.capacity ▸ hlt)).mp hbit
    obtain ⟨b, hb⟩ := Option.ne_none_iff_exists'.mp hi
    have hb' : (m.step h.recordCapacity h.recordRealSize op).2 i = some b := by
      rw [SlotMap.step_of_ne hi hop, hb]
    obtain ⟨hlt', hdata'⟩ := ha'.record i b hb'
    refine ⟨⟨ha'.capacity ▸ hlt', (ha'.bit_iff hlt').mpr (by rw [hb']; nofun)⟩, ?_⟩
    rw [hdata', (ha.record i b hb).2]

/-- **A page is a slot map.** On a new page every run of operations, up to the delete that gives the
page back, answers as on a map from slots to records, and leaves a page that is one. -/
theorem page_is_slot_map (before : ℕ → Byte) {recordSize : ℕ} (hfits : SlotsFit recordSize)
    (ops : List SlotOp) : ∃ answers page m,
      BytePage.run ops (BytePage.initEmptyPage before recordSize) = some (answers, page) ∧
      SlotMap.run (PageHeader.initEmptyPage recordSize).recordCapacity recordSize ops
        (fun _ => none) = (answers, m) ∧
      IsSlotMap recordSize page m := by
  have hl := slotLayout_initEmptyPage hfits
  obtain ⟨answers, page, m, hrun, hrun', ha⟩ :=
    Agrees.run hl ops (agrees_initEmptyPage before recordSize)
  exact ⟨answers, page, m, hrun, hrun', ha.isSlotMap hl⟩

theorem slotsFit_sample : SlotsFit 28 := by
  have hcapacity : (PageHeader.initEmptyPage 28).recordCapacity = 509 := by
    show pageRecordCapacity bpPageDataSize (align8 28) = 509
    rw [pageRecordCapacity_eq]
    decide
  have hfirst : (PageHeader.initEmptyPage 28).firstRecordOffset = 88 := by
    show pageHeaderSize (PageHeader.initEmptyPage 28).recordCapacity = 88
    rw [hcapacity]
    decide
  intro i hi
  rw [hcapacity] at hi
  show (PageHeader.initEmptyPage 28).firstRecordOffset + align8 28 * i + 28 ≤ bpPageDataSize
  rw [hfirst, show align8 28 = 32 by decide, show bpPageDataSize = 16380 by decide]
  omega

/-- A record of 28 bytes is inserted, read and deleted, and so the page is given back. -/
theorem page_is_slot_map_sample : SlotsFit 28 ∧ ∃ answers page m,
    BytePage.run [.insert fun _ => 7, .get 0, .delete 0] (BytePage.initEmptyPage (fun _ => 1) 28) =
      some (answers, page) ∧
    SlotMap.run (PageHeader.initEmptyPage 28).recordCapacity 28
      [.insert fun _ => 7, .get 0, .delete 0] (fun _ => none) = (answers, m) ∧
    IsSlotMap 28 page m :=
  ⟨slotsFit_sample, page_is_slot_map (fun _ => 1) slotsFit_sample _⟩

end Miniob.Storage.Record
