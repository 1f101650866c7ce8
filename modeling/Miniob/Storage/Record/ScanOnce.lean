import Miniob.Storage.Record.RecordScanner

/-!
# A scan returns every record once

Both iterators search on from a bit that is still set: the page of the scanner is pinned, so that it
is not given back before the scanner has found the next one, and the slot of the record that is held
ahead has not been returned yet. So every search is exact, and what a client deletes lies behind the
scanner.

* `RecordFileScanner.Scanning`: the state of a scanner that holds a record.
* `RecordFileScanner.ahead`: the records that it has not fetched yet.
* `Scanning.fetchNextRecord`, `Scanning.delete`: fetching takes the first of them, and deleting a
  record that has been passed leaves them.
* `scan_returns_once`: a whole scan.
-/

namespace Miniob.Storage.Record

open Miniob.Common Miniob.Storage.DiskBufferPool

variable {R : Type}

/-! ## One page -/

/-- The records of a page from a slot on that are accepted. -/
def pageRecords (accept : RID × R → Bool) (page : RecordPage R) (p size start : ℕ) :
    List (RID × R) :=
  ((settedFrom page.bitmap size start).map fun slot => (slotRid p slot, page.slots slot)).filter
    accept

/-- The next slot and the slots behind it. -/
theorem pageRecords_of_head {accept : RID × R → Bool} {page : RecordPage R} {p size start slot : ℕ}
    (h : (settedFrom page.bitmap size start).head? = some slot) :
    pageRecords accept page p size start =
      if accept (slotRid p slot, page.slots slot) then
        (slotRid p slot, page.slots slot) :: pageRecords accept page p size (slot + 1)
      else pageRecords accept page p size (slot + 1) := by
  obtain ⟨rest, hrest⟩ := List.head?_eq_some_iff.mp h
  unfold pageRecords
  rw [hrest, settedFrom_eq_cons hrest, List.map_cons, List.filter_cons]

theorem pageRecords_of_none {accept : RID × R → Bool} {page : RecordPage R} {p size start : ℕ}
    (h : (settedFrom page.bitmap size start).head? = none) :
    pageRecords accept page p size start = [] := by
  unfold pageRecords
  rw [List.head?_eq_none_iff.mp h]
  rfl

/-- The iterator stands in front of the bits that are set from `start` on. -/
def RecordPageIterator.At (it : RecordPageIterator) (page : RecordPage R) (start : ℕ) : Prop :=
  it.nextSlotNum = (settedFrom page.bitmap it.size start).head?

/-- The loop over the slots returns the first record that is accepted and stands behind it. -/
theorem RecordPageIterator.fetch_spec (accept : RID × R → Bool) (page : RecordPage R) (fuel : ℕ) :
    ∀ {it : RecordPageIterator} {start : ℕ}, it.At page start →
      (settedFrom page.bitmap it.size start).length < fuel →
      ∃ r it', it.fetch accept page fuel = some (r, it') ∧
        it'.pool = it.pool ∧ it'.pageNum = it.pageNum ∧ it'.size = it.size ∧
        (r = none → pageRecords accept page it.pageNum it.size start = []) ∧
        ∀ record, r = some record → ∃ slot, start ≤ slot ∧ it'.At page (slot + 1) ∧
          record.1 = slotRid it.pageNum slot ∧
          pageRecords accept page it.pageNum it.size start =
            record :: pageRecords accept page it.pageNum it.size (slot + 1) := by
  induction fuel with
  | zero => exact fun _ hlen => absurd hlen (Nat.not_lt_zero _)
  | succ fuel ih =>
    intro it start hat hlen
    unfold fetch
    cases hnext : it.nextSlotNum with
    | none =>
      refine ⟨none, it, rfl, rfl, rfl, rfl, fun _ => pageRecords_of_none ?_, nofun⟩
      rw [← hat, hnext]
    | some slot =>
      have hhead : (settedFrom page.bitmap it.size start).head? = some slot := by rw [← hat, hnext]
      obtain ⟨rest, hrest⟩ := List.head?_eq_some_iff.mp hhead
      have hslot : slot ∈ settedFrom page.bitmap it.size start := hrest ▸ List.mem_cons_self
      obtain ⟨-, hstart, hbit⟩ := mem_settedFrom.mp hslot
      -- the search goes on from a bit that is set
      have hat' : RecordPageIterator.At ⟨it.pool, it.pageNum, it.size,
          nextSettedBit page.bitmap it.size (slot + 1)⟩ page (slot + 1) :=
        nextSettedBit_eq_head (searchable_succ hbit)
      have hrecords : pageRecords accept page it.pageNum it.size start = _ :=
        pageRecords_of_head hhead
      dsimp only
      by_cases haccept : accept (slotRid it.pageNum slot, page.slots slot)
      · rw [if_pos haccept]
        rw [if_pos haccept] at hrecords
        refine ⟨_, _, rfl, rfl, rfl, rfl, nofun, ?_⟩
        intro record hrecord
        obtain rfl := Option.some.inj hrecord
        exact ⟨slot, hstart, hat', rfl, hrecords⟩
      · rw [if_neg haccept]
        rw [if_neg haccept] at hrecords
        rw [hrest, settedFrom_eq_cons hrest, List.length_cons] at hlen
        obtain ⟨r, it', hfetch, hpool, hpage, hsize, hnone, hsome⟩ :=
          ih hat' (Nat.lt_of_succ_lt_succ hlen)
        refine ⟨r, it', hfetch, hpool, hpage, hsize, fun hr => hrecords.trans (hnone hr), ?_⟩
        intro record hr
        obtain ⟨slot', hle, hat'', hrid, hrest'⟩ := hsome record hr
        exact ⟨slot', by omega, hat'', hrid, hrecords.trans hrest'⟩

/-! ## What deleting and unpinning leave -/

namespace PinnedFile

variable {s : PinnedFile R} {o : Outcomes} {p : Int} {slot i : ℕ}

theorem dispose_bitmap_of_ne {h : FileHeader} (hi : i ≠ slot) :
    (h.dispose slot).bitmap i = h.bitmap i :=
  Function.update_of_ne hi _ _

theorem disposePage_bitmap {rc : RC} (hi : i ≠ p.toNat) :
    (s.disposePage rc p).header.bitmap i = s.header.bitmap i := by
  unfold disposePage
  split
  · rfl
  · exact dispose_bitmap_of_ne hi

theorem cleanup_bitmap (hi : i ≠ p.toNat) :
    (s.cleanup o p).header.bitmap i = s.header.bitmap i := by
  unfold cleanup
  split
  · exact disposePage_bitmap hi
  · rfl

/-- A page that stays pinned is not given back. -/
theorem cleanup_header (hpins : 1 < s.pins p) : (s.cleanup o p).header = s.header := by
  unfold cleanup
  rw [if_neg (by omega)]
  rfl

theorem disposePage_header {rc : RC} (hpins : 0 < s.pins p) :
    (s.disposePage rc p).header = s.header := by
  unfold disposePage
  rw [if_pos (Or.inl hpins)]

theorem disposePage_pins {rc : RC} : (s.disposePage rc p).pins = s.pins := by
  unfold disposePage
  split <;> rfl

/-- What deleting a record leaves: the other pages, the other slots, the pins, and the bits of the
other pages. -/
structure DeleteKeeps (s s' : PinnedFile R) (p : Int) (slot : ℕ) : Prop where
  pages : ∀ q ≠ p, s'.page q = s.page q
  slots : (s'.page p).slots = (s.page p).slots
  bits : ∀ i ≠ slot, (s'.page p).bitmap i = (s.page p).bitmap i
  pins : s'.pins = s.pins
  bitmap : ∀ i ≠ p.toNat, s'.header.bitmap i = s.header.bitmap i
  header : 0 < s.pins p → s'.header = s.header

/-- The page has been written and unpinned. -/
theorem deleteKeeps_after {page : RecordPage R} (hslots : page.slots = (s.page p).slots)
    (hbits : ∀ i ≠ slot, page.bitmap i = (s.page p).bitmap i) :
    DeleteKeeps s (s.after o p page) p slot where
  pages q hq := by
    rw [after_page, Function.update_of_ne hq]
  slots := by
    rw [after_page, Function.update_self, hslots]
  bits i hi := by
    rw [after_page, Function.update_self, hbits i hi]
  pins := after_pins page
  bitmap i hi := cleanup_bitmap hi
  header hpins := by
    refine cleanup_header ?_
    show 1 < Function.update s.pins p (s.pins p + 1) p
    rw [Function.update_self]
    omega

/-- Giving the page back leaves the same. -/
theorem DeleteKeeps.disposePage {s' : PinnedFile R} (h : DeleteKeeps s s' p slot) (rc : RC) :
    DeleteKeeps s (s'.disposePage rc p) p slot where
  pages q hq := by
    rw [disposePage_page, h.pages q hq]
  slots := by
    rw [disposePage_page, h.slots]
  bits i hi := by
    rw [disposePage_page, h.bits i hi]
  pins := by
    rw [disposePage_pins, h.pins]
  bitmap i hi := by
    rw [disposePage_bitmap hi, h.bitmap i hi]
  header hpins := by
    rw [disposePage_header (h.pins ▸ hpins), h.header hpins]

/-- `delete_record` when no call of the buffer pool fails. -/
theorem deleteKeeps (s : PinnedFile R) (p slot : ℕ) :
    DeleteKeeps s (s.deleteRecord .allSuccess p slot).file p slot := by
  have hinit : s.init .allSuccess p = .ok (s.setPins p (s.pins p + 1)) := by
    have hfetch : Outcomes.allSuccess.fetchPage p = .success := by
      refine if_neg ?_
      rintro ⟨-, hneg⟩
      omega
    exact if_pos hfetch
  unfold deleteRecord
  rw [hinit]
  dsimp only
  rw [setPins_page]
  unfold RecordPage.deleteRecord
  split_ifs with hle hbit
  · dsimp only
    rw [after_self]
    exact deleteKeeps_after rfl fun _ _ => rfl
  · have hclear : DeleteKeeps s (s.after .allSuccess p ((s.page p).clear slot)) p slot :=
      deleteKeeps_after rfl fun i hi => Function.update_of_ne hi _ _
    dsimp only
    split
    · have := hclear.disposePage Outcomes.allSuccess.dispose
      exact ⟨this.pages, this.slots, this.bits, this.pins, this.bitmap, this.header⟩
    · exact ⟨hclear.pages, hclear.slots, hclear.bits, hclear.pins, hclear.bitmap, hclear.header⟩
  · dsimp only
    rw [after_self]
    exact deleteKeeps_after rfl fun _ _ => rfl

end PinnedFile

/-! ## The scanner -/

namespace RecordFileScanner

variable {pool : ℕ} {accept : RID × R → Bool} {σ σ' : RecordFileScanner R}
  {files files' : DataFiles R} {start start' : ℕ}

/-- The page that the scanner is on. -/
def current (σ : RecordFileScanner R) : ℕ := σ.bpIterator.currentPageNum

/-- The records of the pages behind a page. -/
def pagesAhead (accept : RID × R → Bool) (file : PinnedFile R) (size current : ℕ) :
    List (RID × R) :=
  (settedFrom file.header.bitmap size (current + 1)).flatMap fun p : ℕ =>
    pageRecords accept (file.page p) p (file.page p).recordCapacity 0

/-- The scanner is on a page of the file whose bit is set. -/
structure OnPage (pool : ℕ) (accept : RID × R → Bool) (σ : RecordFileScanner R)
    (files : DataFiles R) : Prop where
  opened : σ.diskBufferPool = some pool
  accepts : σ.accept = accept
  iterator : σ.bpIterator.pool = pool
  bit : (files pool).header.bitmap σ.current = true
  handler : ∀ held ∈ σ.recordPageHandler, held = (pool, σ.current)

/-- The scanner has the page pinned, and its iterator stands in front of the slots that are in use
from `start` on. -/
structure Scanning (pool : ℕ) (accept : RID × R → Bool) (σ : RecordFileScanner R)
    (files : DataFiles R) (it : RecordPageIterator) (start : ℕ) : Prop where
  onPage : OnPage pool accept σ files
  pinned : 0 < (files pool).pins σ.current
  iterator : σ.recordPageIterator = some it
  ofPool : it.pool = pool
  pageNum : it.pageNum = σ.current
  at' : it.At ((files pool).page σ.current) start

/-- The records that the scanner has not fetched yet. -/
def ahead (accept : RID × R → Bool) (σ : RecordFileScanner R) (file : PinnedFile R)
    (it : RecordPageIterator) (start : ℕ) : List (RID × R) :=
  pageRecords accept (file.page σ.current) σ.current it.size start ++
    pagesAhead accept file σ.bpIterator.size σ.current

/-- The scanner is behind the record. -/
def Passed (σ : RecordFileScanner R) (start : ℕ) (rid : RID) : Prop :=
  ∃ p slot, rid = slotRid p slot ∧ (p < σ.current ∨ p = σ.current ∧ slot < start)

/-- The scanner has fetched the first of the records. -/
structure Fetched (pool : ℕ) (accept : RID × R → Bool) (σ : RecordFileScanner R)
    (files : DataFiles R) (it : RecordPageIterator) (start : ℕ) (records : List (RID × R)) :
    Prop where
  scanning : Scanning pool accept σ files it start
  next : ∃ record, σ.nextRecord = some record ∧ Passed σ start record.1 ∧
    records = record :: ahead accept σ (files pool) it start

/-- Fetching in a page takes the first of its records. -/
theorem fetchInPage_spec {it : RecordPageIterator} (hiter : σ.recordPageIterator = some it)
    (hat : it.At ((files it.pool).page it.pageNum) start) :
    ∃ r it', σ.fetchNextRecordInPage files =
        some { σ with nextRecord := r, recordPageIterator := some it' } ∧
      it'.pool = it.pool ∧ it'.pageNum = it.pageNum ∧ it'.size = it.size ∧
      (r = none → pageRecords σ.accept ((files it.pool).page it.pageNum) it.pageNum it.size
        start = []) ∧
      ∀ record, r = some record → ∃ slot, start ≤ slot ∧
        it'.At ((files it.pool).page it.pageNum) (slot + 1) ∧
        record.1 = slotRid it.pageNum slot ∧
        pageRecords σ.accept ((files it.pool).page it.pageNum) it.pageNum it.size start =
          record :: pageRecords σ.accept ((files it.pool).page it.pageNum) it.pageNum it.size
            (slot + 1) := by
  obtain ⟨r, it', hfetch, hrest⟩ := RecordPageIterator.fetch_spec σ.accept _ (it.size + 1) hat
    (Nat.lt_succ_of_le (length_settedFrom_le _ _ _))
  refine ⟨r, it', ?_, hrest⟩
  unfold fetchNextRecordInPage
  rw [hiter, Option.bind_some, hfetch]
  rfl

/-- Fetching in the page of the scanner. -/
theorem fetchInPage_of {it : RecordPageIterator} (h : Scanning pool accept σ files it start) :
    ∃ r it', σ.fetchNextRecordInPage files =
        some { σ with nextRecord := r, recordPageIterator := some it' } ∧
      it'.pool = it.pool ∧ it'.pageNum = it.pageNum ∧ it'.size = it.size ∧
      (r = none →
        pageRecords accept ((files pool).page σ.current) σ.current it.size start = []) ∧
      ∀ record, r = some record → ∃ slot, start ≤ slot ∧
        it'.At ((files pool).page σ.current) (slot + 1) ∧ record.1 = slotRid σ.current slot ∧
        pageRecords accept ((files pool).page σ.current) σ.current it.size start =
          record :: pageRecords accept ((files pool).page σ.current) σ.current it.size
            (slot + 1) := by
  have hpool := h.ofPool
  have hpage := h.pageNum
  have hspec := @fetchInPage_spec R σ files start it h.iterator
    (by rw [hpool, hpage]; exact h.at')
  rw [h.onPage.accepts, hpool, hpage] at hspec
  rw [hpool, hpage]
  exact hspec

/-- Leaving the page keeps all pages, and the bits of the other pages. -/
theorem cleanupHandler_file (h : OnPage pool accept σ files) :
    (σ.cleanupHandler files pool).page = (files pool).page ∧
      ∀ i ≠ σ.current, (σ.cleanupHandler files pool).header.bitmap i =
        (files pool).header.bitmap i := by
  unfold cleanupHandler
  cases hheld : σ.recordPageHandler with
  | none => exact ⟨rfl, fun _ _ => rfl⟩
  | some held =>
    obtain rfl := h.handler held hheld
    dsimp only
    rw [Function.update_self]
    exact ⟨PinnedFile.cleanup_page, fun i hi => PinnedFile.cleanup_bitmap (by simpa using hi)⟩

/-- The next page. -/
theorem openPage_spec (h : OnPage pool accept σ files) {p : ℕ} (hp : σ.current < p)
    (hbit : (files pool).header.bitmap p = true) :
    ∃ it, Scanning pool accept (σ.openPage files pool p).1 (σ.openPage files pool p).2 it 0 ∧
      it.size = ((files pool).page p).recordCapacity ∧
      ((σ.openPage files pool p).2 pool).page = (files pool).page ∧
      ∀ i ≠ σ.current, ((σ.openPage files pool p).2 pool).header.bitmap i =
        (files pool).header.bitmap i := by
  obtain ⟨hpages, hbits⟩ := cleanupHandler_file h
  have hfile : (σ.openPage files pool p).2 pool =
      (σ.cleanupHandler files pool).setPins p ((σ.cleanupHandler files pool).pins p + 1) :=
    Function.update_self ..
  have hpage : ((σ.openPage files pool p).2 pool).page = (files pool).page := by
    rw [hfile]
    exact hpages
  refine ⟨_, ⟨⟨h.opened, h.accepts, h.iterator, ?_, ?_⟩, ?_, rfl, rfl, rfl, ?_⟩, ?_, hpage, ?_⟩
  · rw [hfile]
    exact (hbits p hp.ne').trans hbit
  · intro held hheld
    exact (Option.some.inj hheld).symm
  · have hpins : ((σ.openPage files pool p).2 pool).pins p =
        (σ.cleanupHandler files pool).pins p + 1 := by
      rw [hfile]
      exact Function.update_self ..
    show 0 < ((σ.openPage files pool p).2 pool).pins p
    rw [hpins]
    exact Nat.succ_pos _
  · exact nextSettedBit_eq_head (Or.inl rfl)
  · show (((σ.openPage files pool p).2 pool).page p).recordCapacity = _
    rw [hpage]
  · intro i hi
    rw [hfile]
    exact hbits i hi

/-- The pages behind a page, when the next one is known. -/
theorem pagesAhead_of_head {file : PinnedFile R} {size current p : ℕ}
    (h : (settedFrom file.header.bitmap size (current + 1)).head? = some p) :
    pagesAhead accept file size current =
      pageRecords accept (file.page p) p (file.page p).recordCapacity 0 ++
        pagesAhead accept file size p := by
  obtain ⟨rest, hrest⟩ := List.head?_eq_some_iff.mp h
  unfold pagesAhead
  rw [hrest, settedFrom_eq_cons hrest, List.flatMap_cons]

theorem pagesAhead_of_none {file : PinnedFile R} {size current : ℕ}
    (h : (settedFrom file.header.bitmap size (current + 1)).head? = none) :
    pagesAhead accept file size current = [] := by
  unfold pagesAhead
  rw [List.head?_eq_none_iff.mp h]
  rfl

/-- The bits that are set depend on the bits from the start on. -/
theorem settedFrom_congr {bits bits' : Bits} {size start : ℕ}
    (h : ∀ i, start ≤ i → bits' i = bits i) :
    settedFrom bits' size start = settedFrom bits size start := by
  refine List.filter_congr fun i _ => ?_
  by_cases hi : start ≤ i
  · rw [h i hi]
  · simp [hi]

/-- The pages behind a page depend on their bits and their contents only. -/
theorem pagesAhead_congr {file file' : PinnedFile R} {size current : ℕ}
    (hbits : ∀ i, current < i → file'.header.bitmap i = file.header.bitmap i)
    (hpages : ∀ p : ℕ, current < p → file'.page p = file.page p) :
    pagesAhead accept file' size current = pagesAhead accept file size current := by
  unfold pagesAhead
  rw [settedFrom_congr fun i hi => hbits i hi]
  refine List.flatMap_congr fun p hp => ?_
  rw [hpages p (mem_settedFrom.mp hp).2.1]

/-- The loop over the pages finds the first record of the pages behind the scanner. -/
theorem fetchPages_spec (fuel : ℕ) : ∀ {σ : RecordFileScanner R} {files : DataFiles R},
    OnPage pool accept σ files →
    (settedFrom (files pool).header.bitmap σ.bpIterator.size (σ.current + 1)).length < fuel →
    ∃ σ' files', fetchPages fuel σ files = some (σ', files') ∧ σ.current ≤ σ'.current ∧
      (σ'.nextRecord = none ∧ pagesAhead accept (files pool) σ.bpIterator.size σ.current = [] ∨
        σ.current < σ'.current ∧ ∃ it start, Fetched pool accept σ' files' it start
          (pagesAhead accept (files pool) σ.bpIterator.size σ.current)) := by
  induction fuel with
  | zero => exact fun _ hlen => absurd hlen (Nat.not_lt_zero _)
  | succ fuel ih =>
    intro σ files h hlen
    have hsearch : nextSettedBit (files pool).header.bitmap σ.bpIterator.size (σ.current + 1) =
        (settedFrom (files pool).header.bitmap σ.bpIterator.size (σ.current + 1)).head? :=
      nextSettedBit_eq_head (searchable_succ h.bit)
    unfold fetchPages
    rw [h.iterator, show σ.bpIterator.currentPageNum = σ.current from rfl, hsearch, h.opened]
    cases hhead : (settedFrom (files pool).header.bitmap σ.bpIterator.size
        (σ.current + 1)).head? with
    | none =>
      exact ⟨_, _, rfl, le_rfl, Or.inl ⟨rfl, pagesAhead_of_none hhead⟩⟩
    | some p =>
      obtain ⟨rest, hrest⟩ := List.head?_eq_some_iff.mp hhead
      have hp : p ∈ settedFrom (files pool).header.bitmap σ.bpIterator.size (σ.current + 1) :=
        hrest ▸ List.mem_cons_self
      obtain ⟨-, hle, hbit⟩ := mem_settedFrom.mp hp
      have hlt : σ.current < p := hle
      obtain ⟨it, hscan, hsize, hpages, hbits⟩ := openPage_spec h hlt hbit
      obtain ⟨r, it', hfetch, hpool, hpage, hsize', hnone, hsome⟩ := fetchInPage_of hscan
      have hahead : pagesAhead accept (files pool) σ.bpIterator.size σ.current =
          pageRecords accept ((files pool).page p) p it.size 0 ++
            pagesAhead accept ((σ.openPage files pool p).2 pool) σ.bpIterator.size p := by
        rw [pagesAhead_of_head hhead, hsize]
        congr 1
        exact (pagesAhead_congr (fun i hi => hbits i (by omega))
          (fun q _ => congrFun hpages q)).symm
      have hpage₂ : ((σ.openPage files pool p).2 pool).page p = (files pool).page p := by
        rw [hpages]
      dsimp only
      rw [Option.bind_some, hfetch, Option.bind_some]
      cases r with
      | none =>
        have h₂ : OnPage pool accept { (σ.openPage files pool p).1 with
            nextRecord := none, recordPageIterator := some it' } (σ.openPage files pool p).2 :=
          ⟨hscan.onPage.opened, hscan.onPage.accepts, hscan.onPage.iterator, hscan.onPage.bit,
            hscan.onPage.handler⟩
        have hrecords : pageRecords accept ((files pool).page p) p it.size 0 = [] := by
          rw [← hpage₂]
          exact hnone rfl
        have hlen₂ : (settedFrom ((σ.openPage files pool p).2 pool).header.bitmap
            σ.bpIterator.size (p + 1)).length < fuel := by
          rw [settedFrom_congr (fun i hi => hbits i (by omega)), ← settedFrom_eq_cons hrest]
          rw [hrest, List.length_cons] at hlen
          omega
        obtain ⟨σ', files', hrun, hle, hcases⟩ := ih h₂ hlen₂
        rw [hahead, hrecords, List.nil_append]
        refine ⟨σ', files', hrun, hlt.le.trans hle, ?_⟩
        rcases hcases with ⟨hnext, hnil⟩ | ⟨hcurrent, hfetched⟩
        · exact Or.inl ⟨hnext, hnil⟩
        · exact Or.inr ⟨hlt.trans (show p < _ from hcurrent), hfetched⟩
      | some record =>
        obtain ⟨slot, -, hat, hrid, hrecords⟩ := hsome record rfl
        change pageRecords accept (((σ.openPage files pool p).2 pool).page p) p it.size 0 =
          record :: pageRecords accept (((σ.openPage files pool p).2 pool).page p) p it.size
            (slot + 1) at hrecords
        rw [hpage₂] at hrecords
        refine ⟨_, _, rfl, hlt.le, Or.inr ⟨hlt, it', slot + 1, ?_, record, rfl, ?_, ?_⟩⟩
        · exact ⟨⟨hscan.onPage.opened, hscan.onPage.accepts, hscan.onPage.iterator,
            hscan.onPage.bit, hscan.onPage.handler⟩, hscan.pinned, rfl, hpool.trans hscan.ofPool,
            hpage.trans hscan.pageNum, hat⟩
        · exact ⟨p, slot, hrid, Or.inr ⟨rfl, Nat.lt_succ_self _⟩⟩
        · rw [hahead, hrecords]
          show record :: (_ ++ _) = record :: (_ ++ _)
          rw [hsize']
          congr 2
          show _ = pageRecords accept (((σ.openPage files pool p).2 pool).page p) p it.size
            (slot + 1)
          rw [hpage₂]

/-- The next record: the first of those that the scanner has not fetched yet. -/
theorem Scanning.fetchNextRecord {it : RecordPageIterator}
    (h : Scanning pool accept σ files it start) : ∃ σ' files',
    σ.fetchNextRecord files = some (σ', files') ∧
      (σ'.nextRecord = none ∧ ahead accept σ (files pool) it start = [] ∨
        ∃ it' start', Fetched pool accept σ' files' it' start'
          (ahead accept σ (files pool) it start) ∧
          ∀ rid, Passed σ start rid → Passed σ' start' rid) := by
  obtain ⟨r, it', hfetch, hpool, hpage, hsize, hnone, hsome⟩ := fetchInPage_of h
  unfold RecordFileScanner.fetchNextRecord
  rw [h.iterator]
  dsimp only
  rw [hfetch, Option.bind_some]
  cases r with
  | none =>
    have h₂ : OnPage pool accept { σ with nextRecord := none, recordPageIterator := some it' }
        files :=
      ⟨h.onPage.opened, h.onPage.accepts, h.onPage.iterator, h.onPage.bit, h.onPage.handler⟩
    obtain ⟨σ', files', hrun, -, hcases⟩ := fetchPages_spec (σ.bpIterator.size + 1) h₂
      (Nat.lt_succ_of_le (length_settedFrom_le _ _ _))
    have hahead : ahead accept σ (files pool) it start =
        pagesAhead accept (files pool) σ.bpIterator.size σ.current := by
      rw [ahead, hnone rfl, List.nil_append]
    rw [hahead]
    refine ⟨σ', files', hrun, ?_⟩
    rcases hcases with ⟨hnext, hnil⟩ | ⟨hcurrent, it₂, start₂, hfetched⟩
    · exact Or.inl ⟨hnext, hnil⟩
    · refine Or.inr ⟨it₂, start₂, hfetched, ?_⟩
      rintro rid ⟨p, slot, rfl, hp⟩
      have hcurrent : σ.current < σ'.current := hcurrent
      refine ⟨p, slot, rfl, Or.inl ?_⟩
      omega
  | some record =>
    obtain ⟨slot, hle, hat, hrid, hrecords⟩ := hsome record rfl
    have hscan : Scanning pool accept { σ with
        nextRecord := some record, recordPageIterator := some it' } files it' (slot + 1) :=
      ⟨⟨h.onPage.opened, h.onPage.accepts, h.onPage.iterator, h.onPage.bit, h.onPage.handler⟩,
        h.pinned, rfl, hpool.trans h.ofPool, hpage.trans h.pageNum, hat⟩
    refine ⟨_, _, rfl, Or.inr ⟨it', slot + 1, ⟨hscan, record, rfl, ?_, ?_⟩, ?_⟩⟩
    rotate_right
    · rintro rid ⟨p, slot', rfl, hp⟩
      refine ⟨p, slot', rfl, ?_⟩
      show p < σ.current ∨ p = σ.current ∧ slot' < slot + 1
      omega
    · exact ⟨σ.current, slot, hrid, Or.inr ⟨rfl, Nat.lt_succ_self _⟩⟩
    · rw [ahead, hrecords]
      show _ = record :: (pageRecords accept ((files pool).page σ.current) σ.current it'.size
        (slot + 1) ++ _)
      rw [hsize]
      rfl

/-- Deleting a record that the scanner has passed leaves what is ahead. -/
theorem Scanning.delete {it : RecordPageIterator} (h : Scanning pool accept σ files it start)
    {rid : RID} (hpassed : Passed σ start rid) :
    Scanning pool accept σ (DataFiles.delete files pool rid) it start ∧
      ahead accept σ (DataFiles.delete files pool rid pool) it start =
        ahead accept σ (files pool) it start := by
  obtain ⟨p, slot, rfl, hp⟩ := hpassed
  have hfile : DataFiles.delete files pool (slotRid p slot) pool =
      ((files pool).deleteRecord .allSuccess p slot).file := by
    unfold DataFiles.delete
    rw [Function.update_self]
    rfl
  have hkeeps : PinnedFile.DeleteKeeps (files pool)
      (DataFiles.delete files pool (slotRid p slot) pool) p slot :=
    hfile ▸ PinnedFile.deleteKeeps _ _ _
  generalize DataFiles.delete files pool (slotRid p slot) = files' at hkeeps
  -- the page of the scanner keeps the slots that are ahead
  have hpage : ∀ size i, start ≤ i → settedFrom ((files' pool).page σ.current).bitmap size i =
      settedFrom ((files pool).page σ.current).bitmap size i := by
    intro size i hi
    refine settedFrom_congr fun j hj => ?_
    by_cases hcur : p = σ.current
    · rw [← hcur]
      exact hkeeps.bits j (by omega)
    · rw [hkeeps.pages σ.current (by omega)]
  have hslots : ((files' pool).page σ.current).slots = ((files pool).page σ.current).slots := by
    by_cases hcur : p = σ.current
    · rw [← hcur]
      exact hkeeps.slots
    · rw [hkeeps.pages σ.current (by omega)]
  refine ⟨⟨⟨h.onPage.opened, h.onPage.accepts, h.onPage.iterator, ?_, h.onPage.handler⟩, ?_,
    h.iterator, h.ofPool, h.pageNum, ?_⟩, ?_⟩
  · by_cases hcur : p = σ.current
    · rw [hkeeps.header (hcur ▸ h.pinned)]
      exact h.onPage.bit
    · rw [hkeeps.bitmap σ.current (by simpa using Ne.symm hcur)]
      exact h.onPage.bit
  · rw [hkeeps.pins]
    exact h.pinned
  · unfold RecordPageIterator.At
    rw [hpage _ start le_rfl]
    exact h.at'
  · unfold ahead pageRecords
    rw [hpage _ start le_rfl, hslots]
    congr 1
    refine pagesAhead_congr (fun i hi => ?_) (fun q hq => ?_)
    · by_cases hcur : p = σ.current
      · rw [hkeeps.header (hcur ▸ h.pinned)]
      · exact hkeeps.bitmap i (by rw [Int.toNat_natCast]; omega)
    · exact hkeeps.pages q (by omega)

/-- A client gets the record that is held and those that are ahead, whatever it deletes of them. -/
theorem scanLoop_spec (deletes : RID × R → Bool) (records : List (RID × R)) :
    ∀ {σ : RecordFileScanner R} {files : DataFiles R} {it : RecordPageIterator} {start : ℕ},
      Fetched pool accept σ files it start records →
      ∃ last, scanLoop pool deletes (records.length + 1) σ files = some (records, last) := by
  induction records with
  | nil =>
    rintro σ files it start ⟨-, record, -, -, hrecords⟩
    cases hrecords
  | cons record records ih =>
    rintro σ files it start ⟨hscan, record', hnext, hpassed, hrecords⟩
    obtain ⟨rfl, hahead⟩ := List.cons.inj hrecords
    obtain ⟨σ', files', hfetch, hcases⟩ := hscan.fetchNextRecord
    rw [List.length_cons, scanLoop, hnext]
    dsimp only
    rw [hfetch, Option.bind_some]
    rw [← hahead] at hcases
    rcases hcases with ⟨hend, rfl⟩ | ⟨it', start', hfetched, hbehind⟩
    · refine ⟨(σ', if deletes record then DataFiles.delete files' pool record.1 else files'), ?_⟩
      rw [List.length_nil, scanLoop]
      dsimp only
      rw [hend]
      rfl
    · obtain ⟨hscan', record'', hnext', hpassed', hrecords'⟩ := hfetched
      -- the record that is deleted is behind the scanner
      have hdelete := hscan'.delete (hbehind _ hpassed)
      have hstep : Fetched pool accept σ'
          (if deletes record then DataFiles.delete files' pool record.1 else files') it' start'
          records := by
        split
        · exact ⟨hdelete.1, record'', hnext', hpassed', hdelete.2 ▸ hrecords'⟩
        · exact ⟨hscan', record'', hnext', hpassed', hrecords'⟩
      obtain ⟨last, hrun⟩ := ih hstep
      refine ⟨last, ?_⟩
      dsimp only
      rw [hrun]
      rfl

end RecordFileScanner

/-! ## Whole scans -/

open RecordFileScanner

/-- The records of a file that are accepted, by page and slot. -/
def fileRecords (accept : RID × R → Bool) (file : PinnedFile R) : List (RID × R) :=
  pagesAhead accept file file.header.pageCount 0

/-- A whole scan with a new scanner, by a client that deletes the records that it wants to. -/
def scanFile (files : DataFiles R) (pool : ℕ) (filter : Option (RID × R → Bool))
    (deletes : RID × R → Bool) (fuel : ℕ) : Option (List (RID × R)) :=
  (fresh.openScan files pool filter).bind fun r =>
    (scanLoop pool deletes fuel r.1 r.2).map fun rest => rest.1

/-- The filter as a test. Without a filter every record passes. -/
def filterAccept (filter : Option (RID × R → Bool)) (record : RID × R) : Bool :=
  match filter with
  | none => true
  | some filter => filter record

/-- A new scanner holds the first of the records of the file. -/
theorem openScan_spec {files : DataFiles R} {pool : ℕ} (filter : Option (RID × R → Bool))
    (hbit : (files pool).header.bitmap 0 = true) :
    ∃ σ files', fresh.openScan files pool filter = some (σ, files') ∧
      (σ.nextRecord = none ∧ fileRecords (filterAccept filter) (files pool) = [] ∨
        ∃ it start, Fetched pool (filterAccept filter) σ files' it start
          (fileRecords (filterAccept filter) (files pool))) := by
  obtain ⟨σ₀, hσ₀⟩ : ∃ σ₀ : RecordFileScanner R, σ₀ = { fresh.closeScan with
    diskBufferPool := some pool
    bpIterator := ⟨pool, (files pool).header.pageCount, 0⟩
    conditionFilter := filter } := ⟨_, rfl⟩
  have hpage : OnPage pool (filterAccept filter) σ₀ files := by
    subst hσ₀
    exact ⟨rfl, rfl, rfl, hbit, nofun⟩
  obtain ⟨σ, files', hfetch, -, hcases⟩ := fetchPages_spec (σ₀.bpIterator.size + 1) hpage
    (Nat.lt_succ_of_le (length_settedFrom_le _ _ _))
  have hopen : fresh.openScan files pool filter = some (σ, files') := by
    rw [← hfetch, hσ₀]
    rfl
  have hahead : pagesAhead (filterAccept filter) (files pool) σ₀.bpIterator.size σ₀.current =
      fileRecords (filterAccept filter) (files pool) := by
    rw [hσ₀]
    rfl
  rw [hahead] at hcases
  refine ⟨σ, files', hopen, ?_⟩
  rcases hcases with hend | ⟨-, it, start, hfetched⟩
  · exact Or.inl hend
  · exact Or.inr ⟨it, start, hfetched⟩

/-- A scan returns the records of the file in order. -/
theorem scanFile_eq {files : DataFiles R} {pool : ℕ} (filter : Option (RID × R → Bool))
    (deletes : RID × R → Bool) (hbit : (files pool).header.bitmap 0 = true) :
    scanFile files pool filter deletes
        ((fileRecords (filterAccept filter) (files pool)).length + 1) =
      some (fileRecords (filterAccept filter) (files pool)) := by
  obtain ⟨σ, files', hopen, hcases⟩ := openScan_spec filter hbit
  unfold scanFile
  rw [hopen, Option.bind_some]
  rcases hcases with ⟨hnext, hnil⟩ | ⟨it, start, hfetched⟩
  · rw [hnil, List.length_nil, scanLoop]
    dsimp only
    rw [hnext]
    rfl
  · obtain ⟨last, hrun⟩ := scanLoop_spec deletes _ hfetched
    rw [hrun]
    rfl

/-- The order of a scan. -/
def ridBefore (rid₁ rid₂ : RID) : Prop :=
  rid₁.pageNum < rid₂.pageNum ∨ rid₁.pageNum = rid₂.pageNum ∧ rid₁.slotNum < rid₂.slotNum

variable {accept : RID × R → Bool} {file : PinnedFile R}

theorem mem_pageRecords {page : RecordPage R} {p : ℕ} {record : RID × R} :
    record ∈ pageRecords accept page p page.recordCapacity 0 ↔
      ∃ slot, record = (slotRid p slot, page.slots slot) ∧ page.used slot ∧
        accept record = true := by
  unfold pageRecords
  rw [List.mem_filter, List.mem_map]
  constructor
  · rintro ⟨⟨slot, hslot, rfl⟩, haccept⟩
    obtain ⟨hlt, -, hbit⟩ := mem_settedFrom.mp hslot
    exact ⟨slot, rfl, ⟨hlt, hbit⟩, haccept⟩
  · rintro ⟨slot, rfl, hused, haccept⟩
    exact ⟨⟨slot, mem_settedFrom.mpr ⟨hused.1, Nat.zero_le _, hused.2⟩, rfl⟩, haccept⟩

/-- The records of a file are those of its allocated pages. -/
theorem mem_fileRecords {record : RID × R} : record ∈ fileRecords accept file ↔
    ∃ p slot : ℕ, record = (slotRid p slot, (file.page p).slots slot) ∧ file.Live p slot ∧
      accept record = true := by
  unfold fileRecords pagesAhead
  rw [List.mem_flatMap]
  constructor
  · rintro ⟨p, hp, hrecord⟩
    obtain ⟨hlt, hpos, hbit⟩ := mem_settedFrom.mp hp
    obtain ⟨slot, heq, hused, haccept⟩ := mem_pageRecords.mp hrecord
    refine ⟨p, slot, heq, ⟨⟨?_, ?_, ?_⟩, hused⟩, haccept⟩
    · exact_mod_cast hpos
    · exact_mod_cast hlt
    · exact hbit
  · rintro ⟨p, slot, heq, ⟨⟨hpos, hlt, hbit⟩, hused⟩, haccept⟩
    refine ⟨p, mem_settedFrom.mpr ⟨?_, ?_, hbit⟩, mem_pageRecords.mpr ⟨slot, heq, hused, haccept⟩⟩
    · exact_mod_cast hlt
    · exact_mod_cast hpos

/-- The records of a file are in the order of their pages and slots. -/
theorem fileRecords_sorted (accept : RID × R → Bool) (file : PinnedFile R) :
    (fileRecords accept file).Pairwise fun r₁ r₂ => ridBefore r₁.1 r₂.1 := by
  unfold fileRecords pagesAhead
  rw [List.pairwise_flatMap]
  constructor
  · intro p _
    refine List.Pairwise.filter _ (List.pairwise_map.mpr ?_)
    refine (settedFrom_sorted _ _ _).imp fun {i j} hij => Or.inr ⟨rfl, ?_⟩
    show (i : Int) < j
    exact_mod_cast hij
  · refine (settedFrom_sorted _ _ _).imp fun {p q} hpq r₁ hr₁ r₂ hr₂ => Or.inl ?_
    obtain ⟨slot₁, rfl, -⟩ := mem_pageRecords.mp hr₁
    obtain ⟨slot₂, rfl, -⟩ := mem_pageRecords.mp hr₂
    show (p : Int) < q
    exact_mod_cast hpq

/-- **A scan returns every record once.** A new scanner returns the records of the file that its
filter accepts, each of them once and in order, whichever of them the client deletes when it has
received them. -/
theorem scan_returns_once (files : DataFiles R) (pool : ℕ) (filter : Option (RID × R → Bool))
    (deletes : RID × R → Bool) (hbit : (files pool).header.bitmap 0 = true) :
    ∃ fuel records, scanFile files pool filter deletes fuel = some records ∧
      (records.Pairwise fun r₁ r₂ => ridBefore r₁.1 r₂.1) ∧
      ∀ record, record ∈ records ↔ ∃ p slot : ℕ,
        record = (slotRid p slot, ((files pool).page p).slots slot) ∧
        (files pool).Live p slot ∧ filterAccept filter record = true :=
  ⟨_, _, scanFile_eq filter deletes hbit, fileRecords_sorted _ _, fun _ => mem_fileRecords⟩

/-- A file with two records on page 1 and one on page 3. -/
def threeRecordFile : PinnedFile ℕ where
  page := fun p => if p = 1 then ⟨2, 4, fun i => i = 0 ∨ i = 2, fun i => i⟩
    else ⟨1, 4, fun i => i = 1, fun i => 10 + i⟩
  header := ⟨4, 3, fun i => i ≠ 2⟩
  pins := fun _ => 0
  disposedPages := ∅
  freePages := ∅

/-- All records are deleted when they have been received. -/
theorem scan_returns_once_sample : threeRecordFile.header.bitmap 0 = true ∧
    ∃ fuel records, scanFile (fun _ => threeRecordFile) 0 none (fun _ => true) fuel = some records ∧
      (records.Pairwise fun r₁ r₂ => ridBefore r₁.1 r₂.1) ∧
      ∀ record, record ∈ records ↔ ∃ p slot : ℕ,
        record = (slotRid p slot, (threeRecordFile.page p).slots slot) ∧
        threeRecordFile.Live p slot ∧ filterAccept none record = true :=
  ⟨by decide, scan_returns_once (fun _ => threeRecordFile) 0 none (fun _ => true) (by decide)⟩

end Miniob.Storage.Record
