import Miniob.Storage.Record.RecordManager

/-!
# The records of a file

What the calls of the record manager do to the map from record identifiers to records.

* `RecordFile.Inv`: every page counts its records, and `free_pages_` has pages of the file only.
* `RecordFile.wiped`: the records that are left when an insertion takes a page from the file
  header whose bit is clear. Such a page may still have records: the bit is cleared when a page
  loses its last record, but the page stays in `free_pages_` and gets records again.
* `Inv.insertRecord`, `Inv.deleteRecord`: the calls, as changes of the map.
-/

namespace Miniob.Storage.Record

open Miniob.Common Miniob.Storage.DiskBufferPool

variable {R : Type}

/-! ## Pages -/

namespace RecordPage

variable {page : RecordPage R} {slot : ℕ}

theorem record_natCast (page : RecordPage R) (slot : ℕ) :
    page.record slot = if page.used slot then some (page.slots slot) else none := by
  simp [record]

/-- A filled slot has its record. -/
theorem record_fill (hslot : slot < page.recordCapacity) (data : R) :
    (page.fill slot data).record = Function.update page.record slot (some data) := by
  funext s
  by_cases hs : s = slot
  · subst hs
    simp [record_natCast, used, fill, hslot]
  · rw [Function.update_of_ne hs]
    by_cases h0 : 0 ≤ s
    · have hne : s.toNat ≠ slot := by omega
      exact if_congr (by simp [used, fill, hne]) (by simp [fill, hne]) rfl
    · simp [record, h0]

/-- An emptied slot has no record. -/
theorem record_clear (page : RecordPage R) (slot : ℕ) :
    (page.clear slot).record = Function.update page.record slot none := by
  funext s
  by_cases hs : s = slot
  · subst hs
    simp [record_natCast, used, clear]
  · rw [Function.update_of_ne hs]
    by_cases h0 : 0 ≤ s
    · have hne : s.toNat ≠ slot := by omega
      exact if_congr (by simp [used, clear, hne]) (by simp [clear]) rfl
    · simp [record, h0]

@[simp] theorem record_initEmptyPage (page : RecordPage R) (capacity : ℕ) :
    (page.initEmptyPage capacity).record = fun _ => none := by
  funext s
  simp [record, used, initEmptyPage]

/-- The page counts its records. -/
structure Counted (page : RecordPage R) (capacity : ℕ) : Prop where
  recordCapacity : page.recordCapacity = capacity
  recordNum : page.recordNum = bitCount page.bitmap capacity

namespace Counted

variable {capacity : ℕ}

theorem initEmptyPage (page : RecordPage R) (capacity : ℕ) :
    (page.initEmptyPage capacity).Counted capacity :=
  ⟨rfl, by simp [RecordPage.initEmptyPage]⟩

theorem fill (h : page.Counted capacity) (hslot : slot < capacity)
    (hbit : page.bitmap slot = false) (data : R) : (page.fill slot data).Counted capacity := by
  refine ⟨h.recordCapacity, ?_⟩
  rw [RecordPage.fill, bitCount_set hslot hbit, h.recordNum]
  rfl

theorem clear (h : page.Counted capacity) (hslot : slot < capacity)
    (hbit : page.bitmap slot = true) : (page.clear slot).Counted capacity := by
  refine ⟨h.recordCapacity, ?_⟩
  have := bitCount_reset hslot hbit
  rw [RecordPage.clear, h.recordNum]
  dsimp only
  omega

/-- A page is full when every slot is used. -/
theorem isFull_iff (h : page.Counted capacity) :
    page.isFull ↔ bitCount page.bitmap capacity = capacity := by
  have := bitCount_le page.bitmap capacity
  rw [isFull, h.recordNum, h.recordCapacity]
  omega

/-- An insertion takes an empty slot, if there is one. -/
theorem insertRecord (h : page.Counted capacity) (data : R) :
    (page.isFull ∧ page.insertRecord data = some (.error .recordNomem)) ∨
    ∃ slot < capacity, page.bitmap slot = false ∧
      nextUnsettedBit page.bitmap capacity 0 = some slot ∧
      page.insertRecord data = some (.ok (slot, page.fill slot data)) := by
  unfold RecordPage.insertRecord
  rw [h.recordCapacity, h.recordNum]
  by_cases hfull : bitCount page.bitmap capacity = capacity
  · exact Or.inl ⟨h.isFull_iff.mpr hfull, by rw [if_pos (by exact_mod_cast hfull)]⟩
  · obtain ⟨slot, hlt, hnext, hbit⟩ :=
      nextUnsettedBit_of_lt (lt_of_le_of_ne (bitCount_le page.bitmap capacity) hfull)
    refine Or.inr ⟨slot, hlt, hbit, hnext, ?_⟩
    rw [if_neg (by exact_mod_cast hfull), hnext, Option.map_some]

end Counted

end RecordPage

/-! ## Files -/

/-- The state of a data file between two calls. -/
structure RecordFile.Inv (file : RecordFile R) (capacity : ℕ) : Prop where
  pos : 0 < file.length
  pageCount : file.header.pageCount = file.length
  headerBit : file.header.bitmap 0 = true
  counted : ∀ p, 0 < p → p < file.length → (file.page p).Counted capacity
  free : ∀ p ∈ file.freePages, 0 < p ∧ p < file.length

namespace RecordFile

variable {file : RecordFile R} {capacity : ℕ}

@[simp] theorem setPage_header (p : ℕ) (page : RecordPage R) :
    (file.setPage p page).header = file.header := rfl

@[simp] theorem setPage_length (p : ℕ) (page : RecordPage R) :
    (file.setPage p page).length = file.length := rfl

@[simp] theorem setPage_freePages (p : ℕ) (page : RecordPage R) :
    (file.setPage p page).freePages = file.freePages := rfl

@[simp] theorem setPage_page_self (p : ℕ) (page : RecordPage R) :
    (file.setPage p page).page p = page := by
  simp [setPage]

theorem setPage_page_of_ne {p q : ℕ} (hq : q ≠ p) (page : RecordPage R) :
    (file.setPage p page).page q = file.page q := by
  simp [setPage, hq]

@[simp] theorem addFreePage_header (p : ℕ) : (file.addFreePage p).header = file.header := rfl

@[simp] theorem addFreePage_length (p : ℕ) : (file.addFreePage p).length = file.length := rfl

@[simp] theorem addFreePage_page (p : ℕ) : (file.addFreePage p).page = file.page := rfl

@[simp] theorem addFreePage_record (p : ℕ) : (file.addFreePage p).record = file.record := rfl

/-- Whatever order the set has then, it has the page and the ones it had. -/
@[simp] theorem mem_addFreePage {p q : ℕ} :
    q ∈ (file.addFreePage p).freePages ↔ q = p ∨ q ∈ file.freePages :=
  SetOrder.mem_insert

theorem inv_empty [Inhabited R] (orders : Stream' SetOrder) (capacity : ℕ) :
    (empty orders : RecordFile R).Inv capacity := by
  refine ⟨Nat.one_pos, rfl, rfl, ?_, ?_⟩
  · intro p hp hlt
    exact absurd hlt (by simp only [empty]; omega)
  · intro p hp
    simp [empty] at hp

/-- The page is in `free_pages_` as long as it has an empty slot. -/
def Tracked (file : RecordFile R) (p : ℕ) : Prop := p ∈ file.freePages ∨ (file.page p).isFull

/-- The page that an insertion takes from the file header, if `free_pages_` has none to offer and
the bit of some page is clear. -/
def reusedPage (file : RecordFile R) : Option ℕ :=
  match (file.findFreePage file.freePages).1 with
  | .ok none => file.header.freePage
  | _ => none

/-- The records that are left when an insertion has chosen its page. -/
def wiped (file : RecordFile R) (rid : RID) : Option R :=
  if file.reusedPage = some rid.pageNum.toNat then none else file.record rid

/-- The records that are left were there. -/
theorem record_of_wiped {rid : RID} {data : R} (h : file.wiped rid = some data) :
    file.record rid = some data := by
  unfold wiped at h
  split at h
  · cases h
  · exact h

@[simp] theorem record_slotRid {p slot : ℕ} (hp : 0 < p) (hlt : p < file.length) :
    file.record (slotRid p slot) = (file.page p).record slot := by
  rw [record, if_pos ⟨by simpa [slotRid] using hp, by simpa [slotRid] using hlt⟩]
  simp [slotRid]

/-- A record has an identifier with numbers of a page and a slot. -/
theorem record_eq_some {rid : RID} {data : R} (h : file.record rid = some data) :
    ∃ p slot : ℕ, rid = slotRid p slot ∧ 0 < p ∧ p < file.length ∧
      (file.page p).used slot ∧ (file.page p).slots slot = data := by
  unfold record at h
  split at h
  · rename_i hp
    unfold RecordPage.record at h
    split at h
    · rename_i hs
      refine ⟨rid.pageNum.toNat, rid.slotNum.toNat, ?_, by omega, by omega, hs.2,
        Option.some.inj h⟩
      cases rid
      simp only [slotRid, RID.mk.injEq]
      simp only at hp hs
      omega
    · cases h
  · cases h

/-- The records are in the slots of the pages. -/
theorem forall_record_iff (file : RecordFile R) (P : RID → R → Prop) :
    (∀ p < file.length, ∀ slot < (file.page p).recordCapacity,
      ∀ data ∈ file.record (slotRid p slot), P (slotRid p slot) data) ↔
      ∀ rid data, file.record rid = some data → P rid data := by
  constructor
  · intro h rid data hrid
    obtain ⟨p, slot, rfl, -, hlt, hused, -⟩ := record_eq_some hrid
    exact h p hlt slot hused.1 data hrid
  · exact fun h p _ slot _ data hdata => h _ data hdata

/-- What is said of the records of a file is checked slot by slot. -/
instance decidableForallRecord (file : RecordFile R) (P : RID → R → Prop)
    [∀ rid data, Decidable (P rid data)] :
    Decidable (∀ rid data, file.record rid = some data → P rid data) :=
  decidable_of_iff _ (file.forall_record_iff P)

/-- Two files have the same records. -/
theorem record_eq_iff {file' : RecordFile R} : file.record = file'.record ↔
    (∀ rid data, file.record rid = some data → file'.record rid = some data) ∧
      ∀ rid data, file'.record rid = some data → file.record rid = some data := by
  refine ⟨fun h => h ▸ ⟨fun _ _ h => h, fun _ _ h => h⟩, fun h => funext fun rid => ?_⟩
  exact Option.ext fun data => ⟨h.1 rid data, h.2 rid data⟩

instance [DecidableEq R] (file file' : RecordFile R) : Decidable (file.record = file'.record) :=
  decidable_of_iff _ record_eq_iff.symm

/-- Changing a page changes the records of that page. -/
theorem record_setPage {p : ℕ} (hp : 0 < p) (hlt : p < file.length) (page : RecordPage R)
    (rid : RID) :
    (file.setPage p page).record rid =
      if rid.pageNum = p then page.record rid.slotNum else file.record rid := by
  by_cases hrid : rid.pageNum = p
  · have hto : rid.pageNum.toNat = p := by omega
    have hin : 0 < rid.pageNum ∧ rid.pageNum < (file.setPage p page).length :=
      ⟨by omega, by simp only [setPage]; omega⟩
    rw [if_pos hrid, record, if_pos hin, hto, setPage_page_self]
  · rw [if_neg hrid, record, record]
    refine ite_congr rfl (fun hin => ?_) fun _ => rfl
    rw [setPage_page_of_ne (by omega)]

/-- Filling a slot adds its record. -/
theorem record_setPage_fill {p slot : ℕ} (hp : 0 < p) (hlt : p < file.length)
    (hslot : slot < (file.page p).recordCapacity) (data : R) :
    (file.setPage p ((file.page p).fill slot data)).record =
      Function.update file.record (slotRid p slot) (some data) := by
  funext rid
  rw [record_setPage hp hlt, RecordPage.record_fill hslot]
  by_cases hpage : rid.pageNum = p
  · rw [if_pos hpage]
    by_cases hs : rid.slotNum = slot
    · have : rid = slotRid p slot := by cases rid; simp_all [slotRid]
      subst this
      simp [slotRid]
    · have hne : rid ≠ slotRid p slot := by rintro rfl; exact hs rfl
      rw [Function.update_of_ne hs, Function.update_of_ne hne, record, if_pos (by omega), hpage]
      simp
  · have hne : rid ≠ slotRid p slot := by rintro rfl; exact hpage rfl
    rw [if_neg hpage, Function.update_of_ne hne]

/-- Emptying a slot removes its record. -/
theorem record_setPage_clear {p slot : ℕ} (hp : 0 < p) (hlt : p < file.length) :
    (file.setPage p ((file.page p).clear slot)).record =
      Function.update file.record (slotRid p slot) none := by
  funext rid
  rw [record_setPage hp hlt, RecordPage.record_clear]
  by_cases hpage : rid.pageNum = p
  · rw [if_pos hpage]
    by_cases hs : rid.slotNum = slot
    · have : rid = slotRid p slot := by cases rid; simp_all [slotRid]
      subst this
      simp [slotRid]
    · have hne : rid ≠ slotRid p slot := by rintro rfl; exact hs rfl
      rw [Function.update_of_ne hs, Function.update_of_ne hne, record, if_pos (by omega), hpage]
      simp
  · have hne : rid ≠ slotRid p slot := by rintro rfl; exact hpage rfl
    rw [if_neg hpage, Function.update_of_ne hne]

/-! ## Insertion -/

theorem getThisPage_natCast {p : ℕ} (hp : 0 < p) (hlt : p < file.length) :
    file.getThisPage p = some (p, file.page p) := by
  rw [getThisPage, if_pos ⟨by omega, by omega⟩]
  simp

/-- The loop stops at a page with an empty slot. The pages it removes are full. -/
theorem findFreePage_spec (ps : List ℕ) (hps : ∀ p ∈ ps, 0 < p ∧ p < file.length) :
    (∃ p rest, file.findFreePage ps = (.ok (some p), rest) ∧ p ∈ rest ∧ ¬ (file.page p).isFull ∧
      (∀ q ∈ rest, q ∈ ps) ∧ ∀ q ∈ ps, q ∈ rest ∨ (file.page q).isFull) ∨
    file.findFreePage ps = (.ok none, []) ∧ ∀ q ∈ ps, (file.page q).isFull := by
  induction ps with
  | nil => exact Or.inr ⟨rfl, by simp⟩
  | cons p ps ih =>
    obtain ⟨hp, hlt⟩ := hps p List.mem_cons_self
    unfold findFreePage
    rw [getThisPage_natCast hp hlt]
    by_cases hfull : (file.page p).isFull
    · simp only [if_pos hfull]
      rcases ih fun q hq => hps q (List.mem_cons_of_mem _ hq) with
        ⟨q, rest, heq, hq, hnot, hsub, hall⟩ | ⟨heq, hall⟩
      · refine Or.inl ⟨q, rest, heq, hq, hnot, fun r hr => List.mem_cons_of_mem _ (hsub r hr), ?_⟩
        intro r hr
        rcases List.mem_cons.mp hr with rfl | hr
        · exact Or.inr hfull
        · exact hall r hr
      · refine Or.inr ⟨heq, ?_⟩
        intro r hr
        rcases List.mem_cons.mp hr with rfl | hr
        · exact hfull
        · exact hall r hr
    · simp only [if_neg hfull]
      exact Or.inl ⟨p, p :: ps, rfl, List.mem_cons_self, hfull, fun _ hq => hq,
        fun _ hq => Or.inl hq⟩

/-- What a choice of a page for the next record leaves. -/
structure Chosen (file file' : RecordFile R) (capacity : ℕ) : Prop where
  inv : file'.Inv capacity
  record : file'.record = file.wiped
  tracked : ∀ p, file.Tracked p → file'.Tracked p

theorem Inv.setFreePages (h : file.Inv capacity) {ps : List ℕ}
    (hps : ∀ p ∈ ps, 0 < p ∧ p < file.length) : Inv { file with freePages := ps } capacity :=
  ⟨h.pos, h.pageCount, h.headerBit, h.counted, hps⟩

theorem Inv.addFreePage (h : file.Inv capacity) {p : ℕ} (hp : 0 < p ∧ p < file.length) :
    (file.addFreePage p).Inv capacity := by
  refine ⟨h.pos, h.pageCount, h.headerBit, h.counted, ?_⟩
  intro q hq
  rcases mem_addFreePage.mp hq with rfl | hq
  · exact hp
  · exact h.free q hq

theorem Inv.setPage (h : file.Inv capacity) (p : ℕ) {page : RecordPage R}
    (hpage : page.Counted capacity) : (file.setPage p page).Inv capacity := by
  refine ⟨h.pos, h.pageCount, h.headerBit, ?_, h.free⟩
  intro q hq hlt
  by_cases hqp : q = p
  · subst hqp
    rwa [setPage_page_self]
  · rw [setPage_page_of_ne hqp]
    exact h.counted q hq hlt

/-- The page with the lowest number among those whose bit is clear. -/
theorem freePage_spec {header : FileHeader} {p : ℕ} (h : header.freePage = some p) :
    p < header.pageCount ∧ header.bitmap p = false := by
  unfold FileHeader.freePage at h
  split at h
  · rw [List.find?_range_eq_some] at h
    exact ⟨List.mem_range.mp h.2.1, by simpa using h.1⟩
  · cases h

/-- What `allocate_page` and `init_empty_page` leave: the page has no records, the other pages are
as they were. -/
structure Allocated (file file' : RecordFile R) (capacity p : ℕ) : Prop where
  inv : file'.Inv capacity
  pos : 0 < p
  lt : p < file'.length
  mem : p ∈ file'.freePages
  clear : ∀ slot, (file'.page p).bitmap slot = false
  record : ∀ rid, file'.record rid = if rid.pageNum = p then none else file.record rid
  page : ∀ q, q ≠ p → file'.page q = file.page q

/-- A page of the file whose bit is clear is taken again. -/
theorem Inv.reusePage [Inhabited R] (h : file.Inv capacity) {p : ℕ}
    (hfree : file.header.freePage = some p) :
    ∃ file', file.allocatePage capacity = (.ok p, file') ∧ file.Allocated file' capacity p := by
  obtain ⟨hlt, hbit⟩ := freePage_spec hfree
  rw [h.pageCount] at hlt
  have hp : 0 < p := by
    rcases Nat.eq_zero_or_pos p with rfl | hp
    · rw [h.headerBit] at hbit
      cases hbit
    · exact hp
  obtain ⟨file₁, hfile₁⟩ : ∃ file₁, file₁ = { file with header := file.header.reuse p } := ⟨_, rfl⟩
  have hinv : file₁.Inv capacity := by
    subst hfile₁
    refine ⟨h.pos, h.pageCount, ?_, h.counted, h.free⟩
    simpa [FileHeader.reuse, hp.ne] using h.headerBit
  have hlen : file₁.length = file.length := by rw [hfile₁]
  have hpage : file₁.page = file.page := by rw [hfile₁]
  have hrecord : file₁.record = file.record := by rw [hfile₁]; rfl
  have hget := getThisPage_natCast hp (hlt.trans_eq hlen.symm)
  unfold allocatePage
  simp only [hfree, ← hfile₁, hget]
  refine ⟨_, rfl, ?_, hp, hlt.trans_eq hlen.symm, by simp, ?_, ?_, ?_⟩
  · exact (hinv.setPage p (.initEmptyPage _ capacity)).addFreePage ⟨hp, hlt.trans_eq hlen.symm⟩
  · intro slot
    simp [RecordPage.initEmptyPage]
  · intro rid
    rw [← hrecord]
    refine (record_setPage hp (hlt.trans_eq hlen.symm) _ rid).trans ?_
    rw [RecordPage.record_initEmptyPage]
  · intro q hq
    rw [← hpage]
    exact setPage_page_of_ne hq _

/-- A page is added at the end of the file. -/
theorem Inv.extendFile [Inhabited R] (h : file.Inv capacity) (hfree : file.header.freePage = none)
    (hroom : ¬ maxPageNum ≤ file.header.pageCount) :
    ∃ file', file.allocatePage capacity = (.ok file.length, file') ∧
      file.Allocated file' capacity file.length ∧ file'.record = file.record := by
  have hmax : max file.length (file.header.pageCount + 1) = file.length + 1 := by
    rw [h.pageCount]
    exact max_eq_right (Nat.le_succ _)
  obtain ⟨file₁, hfile₁⟩ : ∃ file₁, file₁ =
      { file with header := file.header.extend, length := file.length + 1 } := ⟨_, rfl⟩
  have hlen : file₁.length = file.length + 1 := by rw [hfile₁]
  have hlt : file.length < file₁.length := by rw [hlen]; exact Nat.lt_succ_self _
  -- the page behind the end of the file has no records yet
  have hrecord : ∀ rid, (file₁.setPage file.length (RecordPage.zero.initEmptyPage capacity)).record
      rid = if rid.pageNum = file.length then none else file.record rid := by
    intro rid
    rw [record_setPage h.pos hlt, RecordPage.record_initEmptyPage]
    refine ite_congr rfl (fun _ => rfl) fun hne => ?_
    simp only [record, hfile₁]
    refine if_congr ?_ rfl rfl
    push_cast
    omega
  have hsame : ∀ rid : RID, (if rid.pageNum = file.length then none else file.record rid) =
      file.record rid := by
    intro rid
    split
    · rename_i heq
      rw [record, if_neg (by omega)]
    · rfl
  unfold allocatePage
  simp only [hfree, if_neg hroom]
  rw [hmax, h.pageCount, ← hfile₁]
  refine ⟨_, rfl, ⟨?_, h.pos, hlt, by simp, ?_, ?_, ?_⟩, ?_⟩
  · refine Inv.addFreePage ⟨?_, ?_, ?_, ?_, ?_⟩ ⟨h.pos, hlt⟩
    · exact Nat.lt_of_lt_of_le h.pos hlt.le
    · rw [setPage_header, setPage_length, hlen, hfile₁]
      exact congrArg (· + 1) h.pageCount
    · rw [setPage_header, hfile₁]
      simpa [FileHeader.extend, h.pageCount, h.pos.ne] using h.headerBit
    · intro q hq hqlt
      by_cases hql : q = file.length
      · subst hql
        rw [setPage_page_self]
        exact .initEmptyPage _ capacity
      · rw [setPage_page_of_ne hql, hfile₁]
        rw [setPage_length, hlen] at hqlt
        exact h.counted q hq (by omega)
    · intro q hq
      rw [setPage_freePages, hfile₁] at hq
      obtain ⟨hpos, hqlt⟩ := h.free q hq
      exact ⟨hpos, hqlt.trans hlt⟩
  · intro slot
    simp [RecordPage.initEmptyPage]
  · exact hrecord
  · intro q hq
    refine (setPage_page_of_ne hq _).trans ?_
    rw [hfile₁]
  · funext rid
    exact (hrecord rid).trans (hsame rid)

/-- The page that gets the next record, and what is left of the file. A page from the header is
empty afterwards. -/
theorem Inv.choosePage [Inhabited R] (h : file.Inv capacity) :
    (∃ p file', file.choosePage capacity = (.ok p, file') ∧ file.Chosen file' capacity ∧
      0 < p ∧ p < file'.length ∧ p ∈ file'.freePages ∧
      ∀ q, file.reusedPage = some q → q = p ∧ ∀ slot, (file'.page p).bitmap slot = false) ∨
    ∃ rc file', file.choosePage capacity = (.error rc, file') ∧ file.Chosen file' capacity := by
  unfold RecordFile.choosePage
  rcases findFreePage_spec file.freePages h.free with
    ⟨p, rest, heq, hp, hnot, hsub, hall⟩ | ⟨heq, hall⟩
  · -- a page of `free_pages_`
    have hreused : file.reusedPage = none := by rw [reusedPage, heq]
    rw [heq]
    refine Or.inl ⟨p, _, rfl, ⟨?_, ?_, ?_⟩, (h.free p (hsub p hp)).1, (h.free p (hsub p hp)).2, hp,
      ?_⟩
    · exact h.setFreePages fun q hq => h.free q (hsub q hq)
    · funext rid
      rw [wiped, hreused]
      rfl
    · rintro q (hq | hq)
      · exact hall q hq
      · exact Or.inr hq
    · intro q hsome
      rw [hreused] at hsome
      cases hsome
  · have hreused : file.reusedPage = file.header.freePage := by rw [reusedPage, heq]
    have hfull : ∀ q, file.Tracked q → (file.page q).isFull := by
      rintro q (hq | hq)
      · exact hall q hq
      · exact hq
    have hinv : Inv { file with freePages := [] } capacity := h.setFreePages (by simp)
    rw [heq]
    simp only
    cases hfree : file.header.freePage with
    | some p =>
      obtain ⟨file', hrun, ha⟩ := hinv.reusePage hfree
      refine Or.inl ⟨p, file', hrun, ⟨ha.inv, ?_, ?_⟩, ha.pos, ha.lt, ha.mem, ?_⟩
      · funext rid
        have hpos := ha.pos
        rw [ha.record, wiped, hreused, hfree]
        refine if_congr ?_ rfl rfl
        rw [Option.some_inj]
        omega
      · intro q hq
        by_cases hqp : q = p
        · exact Or.inl (hqp ▸ ha.mem)
        · refine Or.inr ?_
          rw [ha.page q hqp]
          exact hfull q hq
      · intro q hq
        rw [hreused, hfree, Option.some_inj] at hq
        exact ⟨hq.symm, ha.clear⟩
    | none =>
      have hwiped : file.wiped = file.record := by
        funext rid
        rw [wiped, hreused, hfree]
        rfl
      by_cases hroom : maxPageNum ≤ file.header.pageCount
      · refine Or.inr ⟨.bufferpoolNobuf, { file with freePages := [] }, ?_, hinv, ?_, ?_⟩
        · simp [allocatePage, hfree, hroom]
        · rw [hwiped]
          rfl
        · exact fun q hq => Or.inr (hfull q hq)
      · obtain ⟨file', hrun, ha, hrecord⟩ := hinv.extendFile hfree hroom
        refine Or.inl ⟨file.length, file', hrun, ⟨ha.inv, ?_, ?_⟩, ha.pos, ha.lt, ha.mem, ?_⟩
        · rw [hrecord, hwiped]
          rfl
        · intro q hq
          by_cases hqp : q = file.length
          · exact Or.inl (hqp ▸ ha.mem)
          · refine Or.inr ?_
            rw [ha.page q hqp]
            exact hfull q hq
        · intro q hq
          rw [hreused, hfree] at hq
          cases hq

/-- What an insertion does. Its record is the only one that is added; a page that comes from the
header loses the records that it had. -/
structure Inserted (file file' : RecordFile R) (capacity : ℕ) (rid : RID) (data : R) : Prop where
  inv : file'.Inv capacity
  fresh : file.wiped rid = none
  record : file'.record = Function.update file.wiped rid (some data)
  tracked : ∀ p, file.Tracked p → file'.Tracked p
  page : file'.Tracked rid.pageNum.toNat
  reused : ∀ p, file.reusedPage = some p → rid = slotRid p 0

theorem Inv.insertRecord [Inhabited R] (h : file.Inv capacity) (data : R) :
    (∃ rid file', file.insertRecord capacity data = some (.ok rid, file') ∧
      file.Inserted file' capacity rid data) ∨
    ∃ rc file', file.insertRecord capacity data = some (.error rc, file') ∧
      file.Chosen file' capacity := by
  unfold RecordFile.insertRecord
  rcases h.choosePage with ⟨p, file₁, heq, hc, hp, hlt, hmem, hclear⟩ | ⟨rc, file₁, heq, hc⟩
  · rw [heq]
    unfold insertInto
    have hcounted := hc.inv.counted p hp hlt
    rcases hcounted.insertRecord data with ⟨-, hins⟩ | ⟨slot, hslot, hbit, hnext, hins⟩
    · exact Or.inr ⟨.recordNomem, file₁, by simp [hins], hc⟩
    · have hslot' : slot < (file₁.page p).recordCapacity := by rwa [hcounted.recordCapacity]
      refine Or.inl ⟨slotRid p slot, file₁.setPage p ((file₁.page p).fill slot data),
        by simp [hins], ⟨?_, ?_, ?_, ?_, ?_, ?_⟩⟩
      · exact hc.inv.setPage p (hcounted.fill hslot hbit data)
      · rw [← hc.record, record_slotRid hp hlt, RecordPage.record_natCast, if_neg]
        simp [RecordPage.used, hbit]
      · rw [record_setPage_fill hp hlt hslot', hc.record]
      · intro q hq
        by_cases hqp : q = p
        · exact Or.inl (hqp ▸ hmem)
        · rcases hc.tracked q hq with hq | hq
          · exact Or.inl hq
          · exact Or.inr (by rwa [setPage_page_of_ne hqp])
      · exact Or.inl (by simpa [slotRid] using hmem)
      · intro q hreused
        obtain ⟨rfl, hbits⟩ := hclear q hreused
        have hzero : nextUnsettedBit (file₁.page q).bitmap capacity 0 = some 0 := by
          rw [nextUnsettedBit, nextBit_eq (Or.inl rfl), List.find?_range_eq_some]
          refine ⟨?_, List.mem_range.mpr (by omega), by omega⟩
          simpa using hbits 0
        rw [hnext] at hzero
        rw [Option.some.inj hzero]
  · rw [heq]
    exact Or.inr ⟨rc, file₁, rfl, hc⟩

/-- A page is taken from the header only when `free_pages_` has none with an empty slot. -/
theorem Inv.full_of_reusedPage (h : file.Inv capacity) {p : ℕ} (hp : file.reusedPage = some p) :
    ∀ q, file.Tracked q → (file.page q).isFull := by
  rintro q (hq | hq)
  · rcases findFreePage_spec file.freePages h.free with ⟨p', rest, heq, -⟩ | ⟨-, hall⟩
    · rw [reusedPage, heq] at hp
      cases hp
    · exact hall q hq
  · exact hq

/-- A full page has a record in its first slot. -/
theorem Inv.record_first {p slot : ℕ} (h : file.Inv capacity) (hp : 0 < p) (hlt : p < file.length)
    (hfull : (file.page p).isFull) (hslot : (file.page p).used slot) :
    ∃ data, file.record (slotRid p 0) = some data := by
  have hcounted := h.counted p hp hlt
  have hpos : 0 < capacity := by
    have := hslot.1
    rw [hcounted.recordCapacity] at this
    omega
  have hbit : (file.page p).bitmap 0 = true := by
    by_contra hbit
    have hcount := bitCount_set hpos (Bool.eq_false_iff.mpr hbit)
    have hle := bitCount_le (Function.update (file.page p).bitmap 0 true) capacity
    rw [hcount, hcounted.isFull_iff.mp hfull] at hle
    omega
  refine ⟨(file.page p).slots 0, ?_⟩
  rw [record_slotRid hp hlt, RecordPage.record_natCast,
    if_pos ⟨by rwa [hcounted.recordCapacity], hbit⟩]

/-! ## Deletion -/

/-- What a deletion does. -/
structure Deleted (file file' : RecordFile R) (capacity : ℕ) (rid : RID) : Prop where
  inv : file'.Inv capacity
  record : file'.record = Function.update file.record rid none
  tracked : ∀ p, file.Tracked p → file'.Tracked p

/-- Giving a page back changes the header only. -/
theorem disposeEmpty_eq (file : RecordFile R) (p : ℕ) :
    ∃ header, file.disposeEmpty p = { file with header := header } ∧
      header.pageCount = file.header.pageCount ∧
      ∀ i, i ≠ p → header.bitmap i = file.header.bitmap i := by
  unfold disposeEmpty
  split
  · refine ⟨_, rfl, rfl, ?_⟩
    intro i hi
    simp [FileHeader.dispose, hi]
  · exact ⟨_, rfl, rfl, fun _ _ => rfl⟩

/-- The record is deleted if it is there. -/
theorem Inv.deleteRecord (h : file.Inv capacity) {rid : RID} {data : R}
    (hrid : file.record rid = some data) :
    ∃ file', file.deleteRecord rid = (.success, file') ∧ file.Deleted file' capacity rid := by
  obtain ⟨p, slot, rfl, hp, hlt, ⟨hslot, hbit⟩, -⟩ := record_eq_some hrid
  have hcounted := h.counted p hp hlt
  have hget : file.getThisPage (slotRid p slot).pageNum = some (p, file.page p) :=
    getThisPage_natCast hp hlt
  have hto : (slotRid p slot).slotNum.toNat = slot := by simp [slotRid]
  have hdel : (file.page p).deleteRecord slot = .ok ((file.page p).clear slot) := by
    rw [RecordPage.deleteRecord, if_neg (by omega), if_neg (by simp [hbit])]
  have hinv := h.setPage p (hcounted.clear (hcounted.recordCapacity ▸ hslot) hbit)
  have hrec : (file.setPage p ((file.page p).clear slot)).record =
      Function.update file.record (slotRid p slot) none := record_setPage_clear hp hlt
  obtain ⟨header, hdispose, hcount, hbits⟩ :=
    (file.setPage p ((file.page p).clear slot)).disposeEmpty_eq p
  have hdisposed : Inv { file.setPage p ((file.page p).clear slot) with header := header }
      capacity :=
    ⟨hinv.pos, hcount.trans hinv.pageCount, (hbits 0 hp.ne).trans hinv.headerBit, hinv.counted,
      h.free⟩
  unfold RecordFile.deleteRecord
  simp only [hget, hto, hdel, hdispose]
  refine ⟨_, rfl, hdisposed.addFreePage ⟨hp, hlt⟩, hrec, ?_⟩
  intro q hq
  by_cases hqp : q = p
  · exact Or.inl (mem_addFreePage.mpr (Or.inl hqp))
  · rcases hq with hq | hq
    · exact Or.inl (mem_addFreePage.mpr (Or.inr hq))
    · refine Or.inr ?_
      rw [addFreePage_page]
      simpa only [setPage_page_of_ne hqp] using hq

/-- A place of the file without a record is past the slots of its page, or the bit of the slot is not
set. -/
theorem slot_of_none {rid : RID} (hslot : 0 ≤ rid.slotNum) (hrid : file.record rid = none)
    (hin : 0 < rid.pageNum ∧ rid.pageNum < file.length) :
    (file.page rid.pageNum.toNat).recordCapacity ≤ rid.slotNum.toNat ∨
      ¬ (file.page rid.pageNum.toNat).recordCapacity ≤ rid.slotNum.toNat ∧
        (file.page rid.pageNum.toNat).bitmap rid.slotNum.toNat = false := by
  rw [record, if_pos hin, RecordPage.record] at hrid
  have hused : ¬ (file.page rid.pageNum.toNat).used rid.slotNum.toNat := by
    intro hused
    rw [if_pos ⟨hslot, hused⟩] at hrid
    cases hrid
  by_cases hcap : (file.page rid.pageNum.toNat).recordCapacity ≤ rid.slotNum.toNat
  · exact Or.inl hcap
  · exact Or.inr ⟨hcap, by simpa [RecordPage.used, not_le.mp hcap] using hused⟩

/-- Nothing happens to the file if the record is not there. A page that cannot be read makes the
call return a success all the same. -/
theorem deleteRecord_of_none {rid : RID} (hslot : 0 ≤ rid.slotNum) (hrid : file.record rid = none) :
    ∃ rc, file.deleteRecord rid = (rc, file) ∧
      (rc = .success ↔ file.getThisPage rid.pageNum = none) := by
  unfold RecordFile.deleteRecord getThisPage
  by_cases hin : 0 < rid.pageNum ∧ rid.pageNum < file.length
  · rw [if_pos hin]
    rcases slot_of_none hslot hrid hin with hcap | ⟨hcap, hbit⟩
    · exact ⟨.invalidArgument, by simp [RecordPage.deleteRecord, hcap], by simp⟩
    · exact ⟨.recordRecordNotExist, by simp [RecordPage.deleteRecord, hcap, hbit], by simp⟩
  · rw [if_neg hin]
    exact ⟨.success, rfl, by simp⟩

/-! ## Reading and overwriting -/

theorem getRecord_of_some {rid : RID} {data : R} (hrid : file.record rid = some data) :
    file.getRecord rid = some (.ok data) := by
  obtain ⟨p, slot, rfl, hp, hlt, ⟨hslot, hbit⟩, rfl⟩ := record_eq_some hrid
  have hget : file.getThisPage (slotRid p slot).pageNum = some (p, file.page p) :=
    getThisPage_natCast hp hlt
  have hto : (slotRid p slot).slotNum.toNat = slot := by simp [slotRid]
  simp [RecordFile.getRecord, hget, hto, RecordPage.getRecord, hslot, hbit]

theorem getRecord_of_none {rid : RID} (hslot : 0 ≤ rid.slotNum) (hrid : file.record rid = none) :
    file.getRecord rid = none ∨ ∃ rc, rc ≠ .success ∧ file.getRecord rid = some (.error rc) := by
  unfold RecordFile.getRecord getThisPage
  by_cases hin : 0 < rid.pageNum ∧ rid.pageNum < file.length
  · rw [if_pos hin]
    rcases slot_of_none hslot hrid hin with hcap | ⟨hcap, hbit⟩
    · exact Or.inr ⟨.recordInvalidrid, by simp, by simp [RecordPage.getRecord, hcap]⟩
    · exact Or.inr ⟨.recordRecordNotExist, by simp, by simp [RecordPage.getRecord, hcap, hbit]⟩
  · exact Or.inl (by rw [if_neg hin]; rfl)

/-- Overwriting a record that is there changes the slot of its page. -/
theorem updateRecord_slot {p slot : ℕ} (hp : 0 < p) (hlt : p < file.length)
    (hused : (file.page p).used slot) (data : R) :
    file.updateRecord (slotRid p slot) data = (.success, file.setPage p
        { file.page p with slots := Function.update (file.page p).slots slot data }) ∧
      (file.setPage p
        { file.page p with slots := Function.update (file.page p).slots slot data }).record =
        Function.update file.record (slotRid p slot) (some data) := by
  obtain ⟨hslot, hbit⟩ := hused
  have hget : file.getThisPage (slotRid p slot).pageNum = some (p, file.page p) :=
    getThisPage_natCast hp hlt
  have hto : (slotRid p slot).slotNum.toNat = slot := by simp [slotRid]
  have hupd : (file.page p).updateRecord slot data =
      .ok { file.page p with slots := Function.update (file.page p).slots slot data } := by
    rw [RecordPage.updateRecord, if_neg (by omega), if_neg (by simp [hbit])]
  unfold RecordFile.updateRecord
  simp only [hget, hto, hupd, true_and]
  -- the slot is filled a second time, and only its data changes
  have hfill : ∀ s, RecordPage.record
      { file.page p with slots := Function.update (file.page p).slots slot data } s =
      ((file.page p).fill slot data).record s := by
    intro s
    refine if_congr (and_congr_right fun hs => ?_) rfl rfl
    by_cases hne : s.toNat = slot
    · simp [RecordPage.used, RecordPage.fill, hne, hslot, hbit]
    · simp [RecordPage.used, RecordPage.fill, hne]
  rw [← record_setPage_fill hp hlt hslot]
  funext rid
  rw [record_setPage hp hlt, record_setPage hp hlt, hfill]

theorem updateRecord_rows {rid : RID} {data : R} (hrid : file.record rid = some data) (data' : R) :
    (file.updateRecord rid data').2.record = Function.update file.record rid (some data') := by
  obtain ⟨p, slot, rfl, hp, hlt, hused, -⟩ := record_eq_some hrid
  obtain ⟨hupd, hrec⟩ := updateRecord_slot hp hlt hused data'
  rw [hupd]
  exact hrec

/-- A record that is there is overwritten. -/
theorem Inv.updateRecord (h : file.Inv capacity) {rid : RID} {data : R}
    (hrid : file.record rid = some data) (data' : R) :
    ∃ file', file.updateRecord rid data' = (.success, file') ∧ file'.Inv capacity ∧
      file'.record = Function.update file.record rid (some data') := by
  obtain ⟨p, slot, rfl, hp, hlt, hused, -⟩ := record_eq_some hrid
  obtain ⟨hupd, hrec⟩ := updateRecord_slot hp hlt hused data'
  have hcounted := h.counted p hp hlt
  exact ⟨_, hupd, h.setPage p ⟨hcounted.recordCapacity, hcounted.recordNum⟩, hrec⟩

/-! ## The length of the file -/

theorem length_le_allocatePage [Inhabited R] (file : RecordFile R) (capacity : ℕ) :
    file.length ≤ (file.allocatePage capacity).2.length := by
  unfold allocatePage
  split
  · dsimp only
    split
    · exact le_rfl
    · exact le_rfl
  · split_ifs
    · exact le_rfl
    · exact le_max_left _ _

theorem length_le_choosePage [Inhabited R] (file : RecordFile R) (capacity : ℕ) :
    file.length ≤ (file.choosePage capacity).2.length := by
  unfold choosePage
  dsimp only
  split
  · exact le_rfl
  · exact le_rfl
  · exact length_le_allocatePage { file with freePages := (file.findFreePage file.freePages).2 }
      capacity

/-- An insertion does not make the file shorter. -/
theorem length_le_insertRecord [Inhabited R] {data : R} {file' : RecordFile R}
    {r : Except RC RID} (h : file.insertRecord capacity data = some (r, file')) :
    file.length ≤ file'.length := by
  refine (length_le_choosePage file capacity).trans (le_of_eq ?_)
  unfold insertRecord at h
  split at h
  · rename_i heq
    cases h
    rw [heq]
  · rename_i heq
    rw [heq]
    unfold insertInto at h
    obtain ⟨r', -, hr⟩ := Option.map_eq_some_iff.mp h
    rcases r' with rc | ⟨slot, page⟩
    · cases hr
      rfl
    · cases hr
      rfl

/-- A deletion keeps the length of the file. -/
theorem length_deleteRecord (file : RecordFile R) (rid : RID) :
    (file.deleteRecord rid).2.length = file.length := by
  unfold deleteRecord
  split
  · rfl
  · split
    · rfl
    · obtain ⟨header, heq, -⟩ := disposeEmpty_eq (file.setPage _ _) _
      rw [heq]
      rfl

/-- The slot of a record is in the file. -/
theorem inFile_of_record {rid : RID} {data : R} (h : file.record rid = some data) :
    0 ≤ rid.slotNum ∧ 0 < rid.pageNum ∧ rid.pageNum < file.length := by
  obtain ⟨p, slot, rfl, hp, hlt, -⟩ := record_eq_some h
  exact ⟨Int.natCast_nonneg slot, Int.natCast_pos.mpr hp, Int.ofNat_lt.mpr hlt⟩

theorem getRecord_isSome {rid : RID} (hin : 0 < rid.pageNum ∧ rid.pageNum < file.length) :
    ∃ r, file.getRecord rid = some r := by
  unfold getRecord getThisPage
  rw [if_pos hin]
  exact ⟨_, rfl⟩

end RecordFile

end Miniob.Storage.Record
