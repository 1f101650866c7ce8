import Miniob.Common.BitmapSearch
import Miniob.Storage.BufferPool.FileHeader
import Miniob.Storage.Record.FileScan
import Mathlib.Data.Finset.Union

/-!
# Recovering pages in any order

Replaying the log marks each page that it meets as allocated. A page that was not is counted once
more in `page_count`, whatever its number is, so a page may end up behind the end of the file.

* `RecordFile.mem_scanPages`: the pages that an iterator visits, also when the bit of page 0 is
  clear. A page that is the first bit of its byte and of the bitmap is passed over.
* `recoverPages_bitmap`, `recoverPages_pageCount`: the header after a sequence of calls. It does not
  depend on their order.
* `recovered_iff`: the pages are recovered if and only if their numbers are small enough for the
  number of them.
-/

namespace Miniob.Storage.Record

open Miniob.Common Miniob.Storage.DiskBufferPool

/-! ## The pages that are visited -/

namespace RecordFile

variable {h : FileHeader} {p : ℕ}

/-- A bit that a search has found. -/
theorem of_nextSettedBit {bits : Bits} {size start i : ℕ}
    (hfind : nextSettedBit bits size start = some i) : i < size ∧ bits i = true := by
  unfold nextSettedBit nextBit at hfind
  obtain ⟨hloop, hlt⟩ := Option.filter_eq_some_iff.mp hfind
  obtain ⟨-, -, -, -, -, hbit, -⟩ := nextBitLoop_eq_some (Nat.mod_lt _ (by decide)) hloop
  exact ⟨of_decide_eq_true hlt, hbit⟩

/-- An iterator visits allocated pages only. -/
theorem of_mem_pagesFrom {fuel current : ℕ} (hp : p ∈ pagesFrom h fuel current) :
    p < h.pageCount ∧ h.bitmap p = true := by
  induction fuel generalizing current with
  | zero => cases hp
  | succ fuel ih =>
    unfold pagesFrom at hp
    split at hp
    · cases hp
    · rename_i q hfind
      rcases List.mem_cons.mp hp with rfl | hp
      · exact of_nextSettedBit hfind
      · exact ih hp

/-- An iterator starts behind the first bit of the first byte that is not zero. -/
theorem scanPages_of_first {byte : ℕ} (hbyte : byte ≤ bitmapBytes h.pageCount)
    (hhas : byteHas true h.bitmap byte) (hnone : ∀ b < byte, ¬ byteHas true h.bitmap b) :
    scanPages h = settedFrom h.bitmap h.pageCount (8 * byte + 1) := by
  have hstart : nextSettedBit h.bitmap h.pageCount (0 + 1) =
      (settedFrom h.bitmap h.pageCount (8 * byte + 1)).head? := by
    rw [nextSettedBit, nextBit_skip (Nat.zero_le _) hbyte fun b _ => hnone b]
    refine nextSettedBit_eq_head (Or.inr ?_)
    rwa [show (8 * byte + 1) / 8 = byte by omega]
  unfold scanPages pagesFrom
  rw [hstart]
  cases hset : settedFrom h.bitmap h.pageCount (8 * byte + 1) with
  | nil => rfl
  | cons q rest =>
    have hq : q ∈ settedFrom h.bitmap h.pageCount (8 * byte + 1) := hset ▸ List.mem_cons_self
    obtain rfl := settedFrom_eq_cons hset
    show q :: pagesFrom h h.pageCount q = _
    rw [pagesFrom_eq h _ (mem_settedFrom.mp hq).2.2 (length_settedFrom_le _ _ _)]

/-- The pages that an iterator visits. -/
theorem mem_scanPages : p ∈ scanPages h ↔
    0 < p ∧ p < h.pageCount ∧ h.bitmap p = true ∧ (p % 8 = 0 → ∃ q < p, h.bitmap q = true) := by
  by_cases hset : p < h.pageCount ∧ h.bitmap p = true
  · obtain ⟨hlt, hbit⟩ := hset
    obtain ⟨byte, -, hle, hhas, hnone⟩ := exists_first_byte (Nat.zero_le _) (byteHas_div hbit)
    have hsize := le_bitmapBytes h.pageCount
    obtain ⟨i, hi, hibit⟩ := byteHas_iff.mp hhas
    rw [scanPages_of_first (by omega) hhas fun b => hnone b (Nat.zero_le b), mem_settedFrom]
    constructor
    · rintro ⟨-, hfirst, -⟩
      exact ⟨by omega, hlt, hbit, fun hmod => ⟨8 * byte + i, by omega, hibit⟩⟩
    · rintro ⟨hpos, -, -, hbelow⟩
      refine ⟨hlt, ?_, hbit⟩
      by_contra hfirst
      obtain ⟨q, hq, hqbit⟩ := hbelow (by omega)
      exact hnone (q / 8) (Nat.zero_le _) (by omega) (byteHas_div hqbit)
  · constructor
    · intro hp
      exact absurd (of_mem_pagesFrom hp) hset
    · rintro ⟨-, hlt, hbit, -⟩
      exact absurd ⟨hlt, hbit⟩ hset

end RecordFile

/-! ## Recovering pages -/

/-- `recover_page` for one page after the other. -/
def recoverPages (h : FileHeader) (ps : List ℕ) : FileHeader := ps.foldl recoverPage h

/-- The pages that are recovered and were not allocated. -/
def newPages (h : FileHeader) (ps : List ℕ) : Finset ℕ :=
  ps.toFinset.filter fun p => h.bitmap p = false

/-- All pages of the sequence have been recovered: the header counts the pages, and an iterator
visits those of the sequence. -/
def Recovered (h : FileHeader) (ps : List ℕ) : Prop :=
  (recoverPages h ps).Counted ∧
    ∀ p ∈ ps, p < (recoverPages h ps).pageCount ∧ p ∈ RecordFile.scanPages (recoverPages h ps)

/-- The numbers of the pages are below the page count that they lead to, and none of them is the
first bit of its byte without an allocated page before it. -/
def Recoverable (h : FileHeader) (ps : List ℕ) : Prop :=
  ∀ p ∈ ps, 0 < p ∧ p < h.pageCount + (newPages h ps).card ∧
    (p % 8 = 0 → ∃ q < p, h.bitmap q = true ∨ q ∈ ps)

variable {h : FileHeader} {ps : List ℕ}

theorem recoverPage_bitmap (h : FileHeader) (p i : ℕ) :
    (recoverPage h p).bitmap i = true ↔ i = p ∨ h.bitmap i = true := by
  unfold recoverPage
  split
  · rename_i hbit
    constructor
    · exact Or.inr
    · rintro (rfl | hi)
      · exact hbit
      · exact hi
  · by_cases hip : i = p
    · subst hip
      simp
    · simp [hip]

theorem recoverPages_bitmap (h : FileHeader) (ps : List ℕ) (i : ℕ) :
    (recoverPages h ps).bitmap i = true ↔ h.bitmap i = true ∨ i ∈ ps := by
  induction ps generalizing h with
  | nil => simp [recoverPages]
  | cons p ps ih =>
    show (recoverPages (recoverPage h p) ps).bitmap i = true ↔ _
    rw [ih, recoverPage_bitmap, List.mem_cons]
    tauto

/-- A page that is recovered first is no longer new. -/
theorem card_newPages_cons (h : FileHeader) (p : ℕ) (ps : List ℕ) :
    (newPages h (p :: ps)).card =
      (if h.bitmap p then 0 else 1) + (newPages (recoverPage h p) ps).card := by
  by_cases hbit : h.bitmap p
  · rw [if_pos hbit, Nat.zero_add, recoverPage, if_pos hbit]
    congr 1
    ext i
    simp only [newPages, Finset.mem_filter, List.mem_toFinset, List.mem_cons]
    constructor
    · rintro ⟨rfl | hi, hclear⟩
      · exact absurd hbit (by rw [hclear]; decide)
      · exact ⟨hi, hclear⟩
    · rintro ⟨hi, hclear⟩
      exact ⟨Or.inr hi, hclear⟩
  · have hinsert : newPages h (p :: ps) = insert p (newPages (recoverPage h p) ps) := by
      ext i
      simp only [newPages, Finset.mem_filter, Finset.mem_insert, List.mem_toFinset, List.mem_cons,
        ← Bool.not_eq_true, recoverPage_bitmap]
      constructor
      · rintro ⟨hi, hclear⟩
        by_cases hip : i = p
        · exact Or.inl hip
        · exact Or.inr ⟨hi.resolve_left hip, not_or.mpr ⟨hip, hclear⟩⟩
      · rintro (rfl | ⟨hi, hclear⟩)
        · exact ⟨Or.inl rfl, hbit⟩
        · exact ⟨Or.inr hi, (not_or.mp hclear).2⟩
    have hnotMem : p ∉ newPages (recoverPage h p) ps := by
      simp [newPages, ← Bool.not_eq_true, recoverPage_bitmap]
    rw [hinsert, Finset.card_insert_of_notMem hnotMem, if_neg hbit, Nat.add_comm]

/-- One page is counted for each page that was not allocated. -/
theorem recoverPages_pageCount (h : FileHeader) (ps : List ℕ) :
    (recoverPages h ps).pageCount = h.pageCount + (newPages h ps).card := by
  induction ps generalizing h with
  | nil => rfl
  | cons p ps ih =>
    show (recoverPages (recoverPage h p) ps).pageCount = _
    rw [ih, card_newPages_cons, ← Nat.add_assoc]
    congr 1
    unfold recoverPage
    split <;> rfl

/-- The count of allocated pages stays right, also for pages behind the end of the file. -/
theorem recoverPages_allocatedPages {n : ℕ} (h : FileHeader) (hlt : ∀ p ∈ ps, p < n)
    (hcount : h.allocatedPages = bitCount h.bitmap n) :
    (recoverPages h ps).allocatedPages = bitCount (recoverPages h ps).bitmap n := by
  induction ps generalizing h with
  | nil => exact hcount
  | cons p ps ih =>
    rw [List.forall_mem_cons] at hlt
    refine ih (recoverPage h p) hlt.2 ?_
    by_cases hbit : h.bitmap p
    · rw [recoverPage, if_pos hbit, hcount]
    · rw [recoverPage, if_neg hbit, bitCount_set hlt.1 (Bool.eq_false_iff.mpr hbit), hcount]
      rfl

/-- The header counts the pages again if all of them are below `page_count`. -/
theorem counted_recoverPages (hh : h.Counted)
    (hlt : ∀ p ∈ ps, p < (recoverPages h ps).pageCount) : (recoverPages h ps).Counted where
  allocatedPages := by
    refine recoverPages_allocatedPages h hlt ?_
    have hle : h.pageCount ≤ (recoverPages h ps).pageCount := by
      rw [recoverPages_pageCount]
      exact Nat.le_add_right _ _
    rw [hh.allocatedPages, bitCount_of_below hle fun i _ => hh.below i]
  below i hi := by
    rcases (recoverPages_bitmap h ps i).mp hi with hbit | hmem
    · refine (hh.below i hbit).trans_le ?_
      rw [recoverPages_pageCount]
      exact Nat.le_add_right _ _
    · exact hlt i hmem

/-- The pages of a sequence are recovered if and only if their numbers are below the page count that
they lead to, and each of them that starts a byte has an allocated page before it. -/
theorem recovered_iff (hh : h.Counted) (ps : List ℕ) : Recovered h ps ↔ Recoverable h ps := by
  unfold Recovered Recoverable
  simp only [RecordFile.mem_scanPages, recoverPages_bitmap, recoverPages_pageCount]
  constructor
  · rintro ⟨-, hps⟩ p hp
    obtain ⟨hlt, hpos, -, -, hbelow⟩ := hps p hp
    exact ⟨hpos, hlt, hbelow⟩
  · intro hps
    refine ⟨counted_recoverPages hh fun p hp => ?_, fun p hp => ?_⟩
    · rw [recoverPages_pageCount]
      exact (hps p hp).2.1
    · obtain ⟨hpos, hlt, hbelow⟩ := hps p hp
      exact ⟨hlt, hpos, hlt, Or.inr hp, hbelow⟩

/-- The second page first. -/
theorem recovered_two_pages :
    createdHeader.Counted ∧
      (Recovered createdHeader [2, 1, 2] ↔ Recoverable createdHeader [2, 1, 2]) :=
  ⟨createdHeader_counted, recovered_iff createdHeader_counted [2, 1, 2]⟩

/-- Page 5 of a new file is behind the two pages that the header counts, and is not visited. -/
theorem recovered_page_lost : createdHeader.Counted ∧ ¬ Recovered createdHeader [5] ∧
    (recoverPages createdHeader [5]).pageCount = 2 ∧
    RecordFile.scanPages (recoverPages createdHeader [5]) = [] := by
  refine ⟨createdHeader_counted, ?_, by decide, by decide⟩
  rintro ⟨-, hps⟩
  exact absurd (hps 5 (by decide)).1 (by decide)

end Miniob.Storage.Record
