import Mathlib.Algebra.Order.Floor.Semifield
import Mathlib.Data.Int.ConditionallyCompleteOrder
import Mathlib.Data.Rat.Floor
import Mathlib.Order.CompletePartialOrder
import Mathlib.Order.Interval.Set.Disjoint
import Mathlib.Tactic.NormNum
import Mathlib.Tactic.FieldSimp
import Mathlib.Tactic.Ring

/-!
# The layout of a page with records

A page with records starts with a header, followed by a bitmap with one bit for each slot. The slots
start at a multiple of eight behind the bitmap and have a multiple of eight as their size. The
number of slots is computed as if the bitmap took an eighth of a byte for each slot and one byte
more, so the rounding of its end is not accounted for.

* `pageRecordCapacity`, `pageHeaderSize`, `PageHeader.initEmptyPage`: the numbers of the source.
* `LayoutFits`: the parts of a page are disjoint and the slots lie in the page.
* `layout_fits_iff`: this is so for all sizes of records but 21 to 24.

All sizes are natural numbers. A record of a size that is close to the largest `int` has no slot in
a page, whatever `align8` returns for it.
-/

namespace Miniob.Storage.Record

/-! ## Sizes -/

/-- `BP_PAGE_DATA_SIZE`: a page without its number. Source: `disk_buffer_pool.h` -/
def bpPageDataSize : ℕ := 16384 - 4

/-- Source: `record_manager.cpp`, `align8` -/
def align8 (size : ℕ) : ℕ := size / 8 * 8 + if size % 8 = 0 then 0 else 8

/-- The five fields of a page header. Source: `record_manager.cpp`, `page_fix_size` -/
def pageFixSize : ℕ := 20

/-- The quotient is cut off, which is the floor as it is not negative.
Source: `record_manager.cpp`, `page_record_capacity` -/
def pageRecordCapacity (pageSize recordSize : ℕ) : ℕ :=
  ⌊((pageSize : ℚ) - pageFixSize - 1) / (recordSize + 1 / 8)⌋₊

/-- Source: `record_manager.cpp`, `page_bitmap_size` -/
def pageBitmapSize (recordCapacity : ℕ) : ℕ :=
  recordCapacity / 8 + if recordCapacity % 8 = 0 then 0 else 1

/-- Source: `record_manager.cpp`, `page_header_size` -/
def pageHeaderSize (recordCapacity : ℕ) : ℕ := align8 (pageFixSize + pageBitmapSize recordCapacity)

/-- Source: `record_manager.h`, `struct PageHeader` -/
structure PageHeader where
  /-- `record_num` -/
  recordNum : ℕ
  /-- `record_capacity` -/
  recordCapacity : ℕ
  /-- `record_real_size` -/
  recordRealSize : ℕ
  /-- `record_size` -/
  recordSize : ℕ
  /-- `first_record_offset` -/
  firstRecordOffset : ℕ

namespace PageHeader

/-- Source: `record_manager.cpp`, `RecordPageHandler::init_empty_page` -/
def initEmptyPage (recordSize : ℕ) : PageHeader where
  recordNum := 0
  recordCapacity := pageRecordCapacity bpPageDataSize (align8 recordSize)
  recordRealSize := recordSize
  recordSize := align8 recordSize
  firstRecordOffset := pageHeaderSize (pageRecordCapacity bpPageDataSize (align8 recordSize))

/-- The bytes of the header. -/
def headerBytes : Set ℕ := Set.Ico 0 pageFixSize

/-- The bytes of the bitmap. -/
def bitmapBytes (h : PageHeader) : Set ℕ :=
  Set.Ico pageFixSize (pageFixSize + pageBitmapSize h.recordCapacity)

/-- The place of a slot. Source: `record_manager.h`, `RecordPageHandler::get_record_data` -/
def getRecordData (h : PageHeader) (slotNum : ℕ) : ℕ :=
  h.firstRecordOffset + h.recordSize * slotNum

/-- The bytes that `insert_record` writes to a slot. -/
def slotBytes (h : PageHeader) (slotNum : ℕ) : Set ℕ :=
  Set.Ico (h.getRecordData slotNum) (h.getRecordData slotNum + h.recordRealSize)

/-- The header, the bitmap and the slots are disjoint, and the slots lie in the page. -/
structure LayoutFits (h : PageHeader) : Prop where
  bitmap : Disjoint headerBytes h.bitmapBytes
  header : ∀ i < h.recordCapacity, Disjoint headerBytes (h.slotBytes i)
  slots : ∀ i < h.recordCapacity, Disjoint h.bitmapBytes (h.slotBytes i)
  slot : ∀ i < h.recordCapacity, ∀ j < h.recordCapacity, i ≠ j →
    Disjoint (h.slotBytes i) (h.slotBytes j)
  inPage : ∀ i < h.recordCapacity, h.slotBytes i ⊆ Set.Ico 0 bpPageDataSize

end PageHeader

/-! ## Rounding -/

theorem le_align8 (size : ℕ) : size ≤ align8 size := by
  unfold align8
  split <;> omega

/-- The multiple of eight that a size is rounded to. -/
theorem align8_eq (size : ℕ) : align8 size = 8 * ((size + 7) / 8) := by
  unfold align8
  split <;> omega

/-- The number of slots, without fractions. -/
theorem pageRecordCapacity_eq (recordSize : ℕ) :
    pageRecordCapacity bpPageDataSize recordSize = 130872 / (8 * recordSize + 1) := by
  unfold pageRecordCapacity
  rw [← Nat.floor_div_eq_div (K := ℚ)]
  congr 1
  have hpos : (0 : ℚ) < recordSize + 1 / 8 := by positivity
  have hpos' : (0 : ℚ) < ((8 * recordSize + 1 : ℕ) : ℚ) := by positivity
  rw [div_eq_div_iff hpos.ne' hpos'.ne']
  norm_num [bpPageDataSize, pageFixSize]
  ring

/-- The number of bytes that the slots need at most, for records of `8 * k` bytes. -/
def lastByte (k : ℕ) : ℕ :=
  pageHeaderSize (130872 / (64 * k + 1)) + 130872 / (64 * k + 1) * (8 * k)

/-- Small slots. -/
theorem lastByte_le_of_lt : ∀ k < 46, k = 0 ∨ k = 3 ∨ lastByte k ≤ 16380 := by
  decide

/-- A few slots, as large as so many can be. -/
theorem fewSlots_le : ∀ n < 45, n = 0 ∨
    pageHeaderSize n + n * (8 * ((130872 / n - 1) / 64)) ≤ 16380 := by
  decide

/-- Rounding the end of the bitmap overruns the page for one size of slots only. -/
theorem lastByte_le {k : ℕ} (hk : k < 2045) : k = 0 ∨ k = 3 ∨ lastByte k ≤ 16380 := by
  by_cases hsmall : k < 46
  · exact lastByte_le_of_lt k hsmall
  refine .inr (.inr ?_)
  unfold lastByte
  obtain ⟨n, hn⟩ : ∃ n, n = 130872 / (64 * k + 1) := ⟨_, rfl⟩
  have hpos : 0 < n := by
    rw [hn]
    exact Nat.div_pos (by omega) (Nat.succ_pos _)
  have hfew : n < 45 := by
    rw [hn]
    exact Nat.div_lt_of_lt_mul (by omega)
  have hlarge : 64 * k + 1 ≤ 130872 / n := by
    rw [Nat.le_div_iff_mul_le hpos, Nat.mul_comm, hn]
    exact Nat.div_mul_le_self _ _
  have hbound := (fewSlots_le n hfew).resolve_left hpos.ne'
  have hle : n * (8 * k) ≤ n * (8 * ((130872 / n - 1) / 64)) := by
    refine Nat.mul_le_mul_left n (Nat.mul_le_mul_left 8 ?_)
    omega
  rw [← hn]
  omega

/-- The last slot ends in the page, except for records of 21 to 24 bytes. -/
theorem last_slot_le {recordSize : ℕ} (hpos : 1 ≤ recordSize)
    (hcapacity : 1 ≤ pageRecordCapacity bpPageDataSize (align8 recordSize)) :
    (PageHeader.initEmptyPage recordSize).getRecordData
        (pageRecordCapacity bpPageDataSize (align8 recordSize) - 1) + recordSize ≤ bpPageDataSize ↔
      ¬ (21 ≤ recordSize ∧ recordSize ≤ 24) := by
  obtain ⟨k, hk⟩ : ∃ k, k = (recordSize + 7) / 8 := ⟨_, rfl⟩
  have halign : align8 recordSize = 8 * k := by rw [align8_eq, hk]
  have hcap : pageRecordCapacity bpPageDataSize (align8 recordSize) = 130872 / (64 * k + 1) := by
    rw [halign, pageRecordCapacity_eq, show 8 * (8 * k) = 64 * k by omega]
  rw [hcap] at hcapacity
  have hlt : k < 2045 := by
    by_contra hle
    rw [Nat.div_eq_of_lt (by omega)] at hcapacity
    omega
  unfold PageHeader.getRecordData PageHeader.initEmptyPage
  dsimp only
  rw [hcap, halign, Nat.mul_sub_one, Nat.mul_comm (8 * k)]
  have hmul : 8 * k ≤ 130872 / (64 * k + 1) * (8 * k) := Nat.le_mul_of_pos_left _ hcapacity
  rcases lastByte_le hlt with rfl | rfl | hle
  · omega
  · rw [show pageHeaderSize (130872 / (64 * 3 + 1)) = 112 by decide]
    unfold bpPageDataSize
    omega
  · unfold lastByte at hle
    have hne : k ≠ 3 := by
      rintro rfl
      revert hle
      decide
    refine iff_of_true ?_ (by omega)
    unfold bpPageDataSize
    omega

/-! ## The layout -/

open PageHeader

/-- The parts of a page are disjoint and the slots lie in the page if and only if the records do
not have 21 to 24 bytes. -/
theorem layout_fits_iff (recordSize : ℕ) (hpos : 1 ≤ recordSize)
    (hcapacity : 1 ≤ pageRecordCapacity bpPageDataSize (align8 recordSize)) :
    (initEmptyPage recordSize).LayoutFits ↔ ¬ (21 ≤ recordSize ∧ recordSize ≤ 24) := by
  rw [← last_slot_le hpos hcapacity]
  have hfirst : pageFixSize + pageBitmapSize (initEmptyPage recordSize).recordCapacity ≤
      (initEmptyPage recordSize).firstRecordOffset := le_align8 _
  have hsize : (initEmptyPage recordSize).recordRealSize ≤ (initEmptyPage recordSize).recordSize :=
    le_align8 recordSize
  generalize hlayout : initEmptyPage recordSize = h at *
  have hreal : h.recordRealSize = recordSize := by rw [← hlayout]; rfl
  have hslots : h.recordCapacity = pageRecordCapacity bpPageDataSize (align8 recordSize) := by
    rw [← hlayout]
    rfl
  rw [← hslots] at hcapacity ⊢
  -- a slot lies before the next one
  have hnext : ∀ i j, i < j → h.getRecordData i + h.recordRealSize ≤ h.getRecordData j := by
    intro i j hij
    have hmul := Nat.mul_le_mul_left h.recordSize (Nat.succ_le_of_lt hij)
    rw [Nat.mul_succ] at hmul
    unfold getRecordData
    omega
  have hbehind : ∀ i, h.firstRecordOffset ≤ h.getRecordData i := fun i => Nat.le_add_right _ _
  have hdisjoint : ∀ {a b c d : ℕ}, b ≤ c → Disjoint (Set.Ico a b) (Set.Ico c d) := by
    intro a b c d hbc
    rw [Set.Ico_disjoint_Ico]
    exact (min_le_left _ _).trans (hbc.trans (le_max_right _ _))
  constructor
  · intro hfits
    have hlast := hfits.inPage (h.recordCapacity - 1) (by omega)
    unfold slotBytes at hlast
    rw [Set.Ico_subset_Ico_iff (by omega)] at hlast
    rw [← hreal]
    exact hlast.2
  · intro hlast
    refine ⟨hdisjoint le_rfl, ?_, ?_, ?_, ?_⟩
    · exact fun i _ => hdisjoint (((Nat.le_add_right _ _).trans hfirst).trans (hbehind i))
    · exact fun i _ => hdisjoint (hfirst.trans (hbehind i))
    · intro i _ j _ hij
      rcases Nat.lt_or_gt_of_ne hij with hlt | hgt
      · exact hdisjoint (hnext i j hlt)
      · exact (hdisjoint (hnext j i hgt)).symm
    · intro i hi
      refine Set.Ico_subset_Ico (Nat.zero_le _) ?_
      rw [← hreal] at hlast
      rcases Nat.lt_or_eq_of_le (Nat.le_sub_one_of_lt hi) with hlt | heq
      · have := hnext i _ hlt
        omega
      · rw [heq]
        exact hlast

/-- Records of 28 bytes. -/
theorem layout_fits_sample : 1 ≤ 28 ∧ 1 ≤ pageRecordCapacity bpPageDataSize (align8 28) ∧
    ((initEmptyPage 28).LayoutFits ↔ ¬ (21 ≤ 28 ∧ 28 ≤ 24)) := by
  have hcapacity : 1 ≤ pageRecordCapacity bpPageDataSize (align8 28) := by
    rw [pageRecordCapacity_eq]
    decide
  exact ⟨by decide, hcapacity, layout_fits_iff 28 (by decide) hcapacity⟩

/-- Five columns of four bytes and the transaction field: the last slot ends four bytes behind the
page. -/
theorem layout_overruns : ¬ (initEmptyPage 24).LayoutFits := by
  intro hfits
  have hcapacity : (initEmptyPage 24).recordCapacity = 678 := by
    show pageRecordCapacity bpPageDataSize (align8 24) = 678
    rw [pageRecordCapacity_eq]
    decide
  have hfirst : (initEmptyPage 24).firstRecordOffset = 112 := by
    show pageHeaderSize (initEmptyPage 24).recordCapacity = 112
    rw [hcapacity]
    decide
  have hbyte : 16383 ∈ (initEmptyPage 24).slotBytes 677 := by
    rw [slotBytes, getRecordData, hfirst, Set.mem_Ico]
    decide
  have hmem := hfits.inPage 677 (by rw [hcapacity]; decide) hbyte
  exact absurd hmem.2 (by decide)

end Miniob.Storage.Record
