import Miniob.Storage.Record.RecordFile
import Mathlib.Data.Set.Finite.Lattice

/-!
# Scanning a data file

A scanner visits the pages whose bit in the file header is set, and on each of them the slots that
are in use. A page whose bit is clear is passed over, with the records that it has.

* `RecordPage.scanSlots_eq`, `RecordFile.scanPages_eq`: what the two iterators visit.
* `RecordFile.Listed`: the page of a record is visited.
* `RecordFile.Inv.mem_scan`: a scan returns the records of the pages that are visited.
-/

namespace Miniob.Storage.Record

open Miniob.Common Miniob.Storage.DiskBufferPool

variable {R : Type}

/-! ## The iterators -/

/-- From a position on, the iterator of a page visits the bits that are set. -/
theorem RecordPage.slotsFrom_eq (page : RecordPage R) (fuel : ℕ) {start : ℕ}
    (hstart : start % 8 = 0 ∨ byteHas true page.bitmap (start / 8))
    (hfuel : (settedFrom page.bitmap page.recordCapacity start).length ≤ fuel) :
    page.slotsFrom fuel (nextSettedBit page.bitmap page.recordCapacity start) =
      settedFrom page.bitmap page.recordCapacity start := by
  induction fuel generalizing start with
  | zero => rw [slotsFrom, List.length_eq_zero_iff.mp (Nat.le_zero.mp hfuel)]
  | succ fuel ih =>
    rw [nextSettedBit_eq_head hstart]
    cases hset : settedFrom page.bitmap page.recordCapacity start with
    | nil => rfl
    | cons slot rest =>
      have hslot : slot ∈ settedFrom page.bitmap page.recordCapacity start :=
        hset ▸ List.mem_cons_self
      rw [hset] at hfuel
      obtain rfl := settedFrom_eq_cons hset
      rw [List.head?_cons, slotsFrom, ih (searchable_succ (mem_settedFrom.mp hslot).2.2)
        (Nat.le_of_succ_le_succ hfuel)]

/-- The slots of a page in the order of a scan. -/
theorem RecordPage.scanSlots_eq (page : RecordPage R) :
    page.scanSlots = settedFrom page.bitmap page.recordCapacity 0 :=
  page.slotsFrom_eq _ (Or.inl rfl) ((length_settedFrom_le _ _ _).trans (Nat.le_succ _))

theorem RecordPage.mem_scanSlots {page : RecordPage R} {slot : ℕ} :
    slot ∈ page.scanSlots ↔ page.used slot := by
  rw [scanSlots_eq, mem_settedFrom, used]
  simp

namespace RecordFile

/-- From a page on, the iterator of a file visits the pages whose bit is set. -/
theorem pagesFrom_eq (h : FileHeader) (fuel : ℕ) {current : ℕ} (hbit : h.bitmap current = true)
    (hfuel : (settedFrom h.bitmap h.pageCount (current + 1)).length ≤ fuel) :
    pagesFrom h fuel current = settedFrom h.bitmap h.pageCount (current + 1) := by
  induction fuel generalizing current with
  | zero => rw [pagesFrom, List.length_eq_zero_iff.mp (Nat.le_zero.mp hfuel)]
  | succ fuel ih =>
    rw [pagesFrom, nextSettedBit_eq_head (searchable_succ hbit)]
    cases hset : settedFrom h.bitmap h.pageCount (current + 1) with
    | nil => rfl
    | cons p rest =>
      have hp : p ∈ settedFrom h.bitmap h.pageCount (current + 1) := hset ▸ List.mem_cons_self
      rw [hset] at hfuel
      obtain rfl := settedFrom_eq_cons hset
      show p :: pagesFrom h fuel p = _
      rw [ih (mem_settedFrom.mp hp).2.2 (Nat.le_of_succ_le_succ hfuel)]

/-- The pages of a file in the order of a scan. -/
theorem scanPages_eq {h : FileHeader} (hbit : h.bitmap 0 = true) :
    scanPages h = settedFrom h.bitmap h.pageCount 1 :=
  pagesFrom_eq h _ hbit ((length_settedFrom_le _ _ _).trans (Nat.le_succ _))

/-! ## Whole scans -/

variable {file : RecordFile R} {capacity : ℕ}

/-- The bit of the page is set, so that a scan visits the page. -/
def Listed (file : RecordFile R) (rid : RID) : Prop :=
  file.header.bitmap rid.pageNum.toNat = true

instance (file : RecordFile R) (rid : RID) : Decidable (file.Listed rid) :=
  inferInstanceAs (Decidable (_ = _))

/-- A scan returns the records of the pages that it visits, if these are pages of the file. -/
theorem mem_scan_iff (hbit : file.header.bitmap 0 = true)
    (hin : ∀ p, p < file.header.pageCount → file.header.bitmap p = true → p < file.length)
    {rid : RID} {data : R} : (rid, data) ∈ file.scan ↔
      file.record rid = some data ∧ file.Listed rid ∧
        rid.pageNum.toNat < file.header.pageCount := by
  simp only [scan, scanPages_eq hbit, List.mem_flatMap, scanPage, List.mem_map,
    RecordPage.mem_scanSlots, mem_settedFrom, Prod.mk.injEq]
  constructor
  · rintro ⟨p, ⟨hlt, hp, hlisted⟩, slot, hslot, rfl, rfl⟩
    refine ⟨?_, by simpa [Listed, slotRid] using hlisted, by simpa [slotRid] using hlt⟩
    rw [record_slotRid hp (hin p hlt hlisted), RecordPage.record_natCast, if_pos hslot]
  · rintro ⟨hrid, hlisted, hlt⟩
    obtain ⟨p, slot, rfl, hp, -, hslot, rfl⟩ := record_eq_some hrid
    exact ⟨p, ⟨by simpa [slotRid] using hlt, hp, by simpa [Listed, slotRid] using hlisted⟩, slot,
      hslot, rfl, rfl⟩

/-- A scan returns the records of the pages that it visits. -/
theorem Inv.mem_scan (h : file.Inv capacity) {rid : RID} {data : R} :
    (rid, data) ∈ file.scan ↔ file.record rid = some data ∧ file.Listed rid := by
  rw [mem_scan_iff h.headerBit fun p hp _ => h.pageCount ▸ hp, h.pageCount]
  refine and_congr_right fun hrid => and_iff_left ?_
  obtain ⟨p, slot, rfl, -, hlt, -⟩ := record_eq_some hrid
  simpa [slotRid] using hlt

/-- A scan returns no record twice. -/
theorem nodup_scan (hbit : file.header.bitmap 0 = true) : (file.scan.map Prod.fst).Nodup := by
  have hslots : ∀ p, ((file.scanPage p).map Prod.fst).Nodup := by
    intro p
    rw [scanPage, List.map_map, RecordPage.scanSlots_eq]
    refine List.Nodup.map ?_ (settedFrom_sorted _ _ _).nodup
    intro i j hij
    simpa [slotRid] using hij
  rw [scan, List.map_flatMap, scanPages_eq hbit]
  refine List.nodup_flatMap.mpr ⟨fun p _ => hslots p, ?_⟩
  refine (settedFrom_sorted _ _ _).imp ?_
  intro p q hpq rid hp hq
  simp only [scanPage, List.map_map, List.mem_map, Function.comp_apply] at hp hq
  obtain ⟨i, -, rfl⟩ := hp
  obtain ⟨j, -, hj⟩ := hq
  simp only [slotRid, RID.mk.injEq, Nat.cast_inj] at hj
  exact hpq.ne' hj.1

theorem Inv.nodup_scan (h : file.Inv capacity) : (file.scan.map Prod.fst).Nodup :=
  RecordFile.nodup_scan h.headerBit

/-- A file has finitely many records. -/
theorem finite_record (file : RecordFile R) : {rid | ∃ data, file.record rid = some data}.Finite := by
  refine ((Set.finite_lt_nat file.length).biUnion fun p _ =>
    (Set.finite_lt_nat (file.page p).recordCapacity).image (slotRid p)).subset ?_
  rintro rid ⟨data, hrid⟩
  obtain ⟨p, slot, rfl, -, hlt, hslot, -⟩ := record_eq_some hrid
  exact Set.mem_biUnion hlt (Set.mem_image_of_mem _ hslot.1)

end RecordFile

end Miniob.Storage.Record
