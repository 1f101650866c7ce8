import Miniob.Common.Bitmap
import Miniob.Storage.BufferPool.DiskBufferPool

/-!
# The books of a file header

A file header counts the pages of its file and those that are allocated, and it has a bitmap of the
allocated pages.

* `FileHeader.Counted`: the count of the allocated pages is right, and none of them lies behind the
  end of the file.
* `Counted.extend`, `Counted.reuse`, `Counted.dispose`: what allocating a page and giving one back
  keep.
-/

namespace Miniob.Storage.DiskBufferPool

open Miniob.Common

/-- The header counts the pages that are allocated, and all of them are below `page_count`. -/
structure FileHeader.Counted (h : FileHeader) : Prop where
  /-- `allocated_pages` is the number of bits that are set below `page_count`. -/
  allocatedPages : h.allocatedPages = bitCount h.bitmap h.pageCount
  /-- No bit is set at `page_count` or behind it. -/
  below : ∀ i, h.bitmap i = true → i < h.pageCount

/-- Bits behind the last bit that is set do not count. -/
theorem bitCount_of_below {bits : Bits} {m n : ℕ} (hmn : m ≤ n)
    (hbelow : ∀ i < n, bits i = true → i < m) : bitCount bits n = bitCount bits m := by
  unfold bitCount
  congr 1
  ext i
  simp only [Finset.mem_filter, Finset.mem_range]
  constructor
  · rintro ⟨hi, hbit⟩
    exact ⟨hbelow i hi hbit, hbit⟩
  · rintro ⟨hi, hbit⟩
    exact ⟨by omega, hbit⟩

namespace FileHeader

variable {h : FileHeader} {p : ℕ}

/-- Setting a bit clears none. -/
theorem bitmap_update_of_set {bits : Bits} {q : ℕ} (hbit : bits p = true) :
    Function.update bits q true p = true := by
  by_cases hpq : p = q
  · rw [hpq, Function.update_self]
  · rw [Function.update_of_ne hpq]
    exact hbit

/-- Set a bit, and count the page. -/
theorem Counted.setBit (hh : h.Counted) {pageCount : ℕ} (hle : h.pageCount ≤ pageCount)
    (hp : p < pageCount) (hbit : h.bitmap p = false) :
    Counted ⟨pageCount, h.allocatedPages + 1, Function.update h.bitmap p true⟩ where
  allocatedPages := by
    show h.allocatedPages + 1 = _
    rw [bitCount_set hp hbit, hh.allocatedPages, bitCount_of_below hle fun i _ => hh.below i,
      Nat.cast_add, Nat.cast_one]
  below i hi := by
    by_cases hip : i = p
    · rw [hip]
      exact hp
    · have hi : h.bitmap i = true := (Function.update_of_ne hip _ _).symm.trans hi
      exact (hh.below i hi).trans_le hle

/-- A page is added at the end. -/
theorem Counted.extend (hh : h.Counted) : h.extend.Counted := by
  refine hh.setBit (Nat.le_succ _) (Nat.lt_succ_self _) ?_
  exact Bool.eq_false_iff.mpr fun hbit => absurd (hh.below _ hbit) (Nat.lt_irrefl _)

/-- A page is taken again. -/
theorem Counted.reuse (hh : h.Counted) (hp : p < h.pageCount) (hbit : h.bitmap p = false) :
    (h.reuse p).Counted :=
  hh.setBit le_rfl hp hbit

/-- An allocated page is given back. -/
theorem Counted.dispose (hh : h.Counted) (hbit : h.bitmap p = true) : (h.dispose p).Counted where
  allocatedPages := by
    show h.allocatedPages - 1 = bitCount (Function.update h.bitmap p false) h.pageCount
    rw [hh.allocatedPages, ← bitCount_reset (hh.below p hbit) hbit]
    omega
  below i hi := by
    refine hh.below i ?_
    by_cases hip : i = p
    · rw [hip]
      exact hbit
    · exact (Function.update_of_ne hip _ _).symm.trans hi

/-- The page that is taken again is free and in the file. -/
theorem freePage_eq_some (hp : h.freePage = some p) : p < h.pageCount ∧ h.bitmap p = false := by
  unfold freePage at hp
  split at hp
  · rw [List.find?_range_eq_some] at hp
    exact ⟨List.mem_range.mp hp.2.1, by simpa using hp.1⟩
  · cases hp

end FileHeader

/-- The header of a file that has been created. -/
def createdHeader : FileHeader := ⟨1, 1, fun i => i = 0⟩

theorem createdHeader_counted : createdHeader.Counted where
  allocatedPages := by decide
  below i hi := by
    obtain rfl : i = 0 := of_decide_eq_true hi
    exact Nat.one_pos

/-- A file that has been created: page 0 holds the header.
Source: `disk_buffer_pool.cpp`, `BufferPoolManager::create_file` -/
def createdFile {D : Type} : List (Page D) := [⟨0, .header createdHeader⟩]

end Miniob.Storage.DiskBufferPool
