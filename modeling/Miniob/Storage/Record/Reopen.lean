import Miniob.Storage.Record.ScanOnce

/-!
# Opening a scanner again

`close_scan` clears the pool and the filter of a scanner. The page of the scan stays pinned, and the
iterator over its slots stays valid, so the next scan begins with the slots that the one before has
left on that page.

* `RecordFileScanner.Reachable`: what scanners can be, whatever happens to the files.
* `Reopens`: a scanner that has been closed pins no page, and returns what a new scanner returns.
* `reopens_iff`: this is so if and only if the scanner has never pinned a page.
-/

namespace Miniob.Storage.Record

open Miniob.Common Miniob.Storage.DiskBufferPool

variable {R : Type}

namespace RecordFileScanner

/-- The scanners that a sequence of calls leads to. The files may change between the calls. -/
inductive Reachable : RecordFileScanner R → Prop
  /-- A scanner that has been constructed. -/
  | fresh : Reachable fresh
  /-- `open_scan` -/
  | openScan {σ σ' : RecordFileScanner R} {files files' : DataFiles R} {pool : ℕ}
      {filter : Option (RID × R → Bool)} : Reachable σ →
      σ.openScan files pool filter = some (σ', files') → Reachable σ'
  /-- `next` -/
  | next {σ σ' : RecordFileScanner R} {files files' : DataFiles R} : Reachable σ →
      σ.fetchNextRecord files = some (σ', files') → Reachable σ'
  /-- `close_scan` -/
  | closeScan {σ : RecordFileScanner R} : Reachable σ → Reachable σ.closeScan

/-- `k` calls of `next`. -/
def nextCalls : ℕ → RecordFileScanner R → DataFiles R →
    Option (RecordFileScanner R × DataFiles R)
  | 0, σ, files => some (σ, files)
  | k + 1, σ, files => (σ.fetchNextRecord files).bind fun r => nextCalls k r.1 r.2

/-- The records that a scanner returns when it is opened. -/
def scanWith (σ : RecordFileScanner R) (files : DataFiles R) (pool : ℕ)
    (filter : Option (RID × R → Bool)) (fuel : ℕ) : Option (List (RID × R)) :=
  (σ.openScan files pool filter).bind fun r =>
    (scanLoop pool (fun _ => false) fuel r.1 r.2).map fun rest => rest.1

/-- After a scan of which `k` records have been taken, the scanner is closed: it pins no page, and
the next scan returns what a new scanner returns. -/
def Reopens (σ : RecordFileScanner R) (files : DataFiles R) (pool : ℕ)
    (filter : Option (RID × R → Bool)) (k pool' : ℕ) (filter' : Option (RID × R → Bool)) : Prop :=
  ∃ σ' files', ((σ.openScan files pool filter).bind fun r => nextCalls k r.1 r.2) =
      some (σ', files') ∧
    σ'.closeScan.recordPageHandler = none ∧
    ∀ fuel, σ'.closeScan.scanWith files' pool' filter' fuel =
      fresh.scanWith files' pool' filter' fuel

/-! ## The page of a scanner -/

variable {σ σ' : RecordFileScanner R} {files files' : DataFiles R} {pool k : ℕ}
  {filter : Option (RID × R → Bool)}

/-- The scanner has not pinned a page. -/
def Pristine (σ : RecordFileScanner R) : Prop :=
  σ.recordPageHandler = none ∧ σ.recordPageIterator = none

/-- The scanner has a page pinned, and an iterator over its slots. -/
def Pinning (σ : RecordFileScanner R) : Prop :=
  σ.recordPageHandler ≠ none ∧ σ.recordPageIterator ≠ none

/-- The next search for a page finds none. -/
def AtEnd (σ : RecordFileScanner R) (files : DataFiles R) : Prop :=
  nextSettedBit (files σ.bpIterator.pool).header.bitmap σ.bpIterator.size
    (σ.bpIterator.currentPageNum + 1) = none

theorem fetchNextRecordInPage_keeps (h : σ.fetchNextRecordInPage files = some σ') :
    σ'.recordPageHandler = σ.recordPageHandler ∧ σ.recordPageIterator ≠ none ∧
      σ'.recordPageIterator ≠ none := by
  unfold fetchNextRecordInPage at h
  obtain ⟨it, hit, h⟩ := Option.bind_eq_some_iff.mp h
  obtain ⟨r, -, rfl⟩ := Option.map_eq_some_iff.mp h
  exact ⟨rfl, by rw [hit]; exact Option.some_ne_none it, Option.some_ne_none _⟩

/-- The loop over the pages pins a page, unless it finds none. -/
theorem fetchPages_pins (fuel : ℕ) : ∀ {σ : RecordFileScanner R} {files : DataFiles R},
    fetchPages fuel σ files = some (σ', files') →
      σ.AtEnd files ∧ σ' = { σ with nextRecord := none } ∧ files' = files ∨
        ¬ σ.AtEnd files ∧ σ'.Pinning := by
  induction fuel with
  | zero =>
    intro σ files h
    cases h
  | succ fuel ih =>
    intro σ files h
    unfold fetchPages at h
    unfold AtEnd
    cases hsearch : nextSettedBit (files σ.bpIterator.pool).header.bitmap σ.bpIterator.size
        (σ.bpIterator.currentPageNum + 1) with
    | none =>
      rw [hsearch] at h
      obtain ⟨rfl, rfl⟩ := Prod.mk.inj (Option.some.inj h)
      exact Or.inl ⟨rfl, rfl, rfl⟩
    | some p =>
      rw [hsearch] at h
      obtain ⟨pool, -, h⟩ := Option.bind_eq_some_iff.mp h
      obtain ⟨σ₁, hfetch, h⟩ := Option.bind_eq_some_iff.mp h
      obtain ⟨hhandler, -, hiter⟩ := fetchNextRecordInPage_keeps hfetch
      have hpinning : σ₁.Pinning := ⟨by rw [hhandler]; exact Option.some_ne_none _, hiter⟩
      refine Or.inr ⟨Option.some_ne_none p, ?_⟩
      split at h
      · obtain ⟨rfl, rfl⟩ := Prod.mk.inj (Option.some.inj h)
        exact hpinning
      · rcases ih h with ⟨-, rfl, -⟩ | ⟨-, hpinning'⟩
        · exact hpinning
        · exact hpinning'

/-- A scanner that has not pinned a page does so as soon as it finds one. -/
theorem Pristine.fetchNextRecord (hσ : σ.Pristine)
    (h : σ.fetchNextRecord files = some (σ', files')) :
    σ.AtEnd files ∧ σ' = { σ with nextRecord := none } ∧ files' = files ∨
      ¬ σ.AtEnd files ∧ σ'.Pinning := by
  unfold RecordFileScanner.fetchNextRecord at h
  rw [hσ.2] at h
  exact fetchPages_pins _ h

/-- A scanner that has pinned a page always pins one. -/
theorem Pinning.fetchNextRecord (hσ : σ.Pinning)
    (h : σ.fetchNextRecord files = some (σ', files')) : σ'.Pinning := by
  obtain ⟨it, hit⟩ := Option.ne_none_iff_exists'.mp hσ.2
  unfold RecordFileScanner.fetchNextRecord at h
  rw [hit] at h
  obtain ⟨σ₁, hfetch, h⟩ := Option.bind_eq_some_iff.mp h
  obtain ⟨hhandler, -, hiter⟩ := fetchNextRecordInPage_keeps hfetch
  have hpinning : σ₁.Pinning := ⟨by rw [hhandler]; exact hσ.1, hiter⟩
  split at h
  · obtain ⟨rfl, rfl⟩ := Prod.mk.inj (Option.some.inj h)
    exact hpinning
  · rcases fetchPages_pins _ h with ⟨-, rfl, -⟩ | ⟨-, hpinning'⟩
    · exact hpinning
    · exact hpinning'

/-- The state in which `open_scan` fetches the first record. -/
def opened (σ : RecordFileScanner R) (files : DataFiles R) (pool : ℕ)
    (filter : Option (RID × R → Bool)) : RecordFileScanner R :=
  { σ.closeScan with
    diskBufferPool := some pool
    bpIterator := ⟨pool, (files pool).header.pageCount, 0⟩
    conditionFilter := filter }

theorem openScan_eq : σ.openScan files pool filter =
    (σ.opened files pool filter).fetchNextRecord files := rfl

/-- A scanner has pinned a page, or has neither a page nor an iterator. -/
theorem Reachable.cases_pinning (h : Reachable σ) : σ.Pristine ∨ σ.Pinning := by
  have hfetch : ∀ {σ σ' : RecordFileScanner R} {files files' : DataFiles R},
      σ.Pristine ∨ σ.Pinning → σ.fetchNextRecord files = some (σ', files') →
      σ'.Pristine ∨ σ'.Pinning := by
    rintro σ σ' files files' (hσ | hσ) hrun
    · rcases hσ.fetchNextRecord hrun with ⟨-, rfl, -⟩ | ⟨-, hpinning⟩
      · exact Or.inl hσ
      · exact Or.inr hpinning
    · exact Or.inr (hσ.fetchNextRecord hrun)
  induction h with
  | fresh => exact Or.inl ⟨rfl, rfl⟩
  | openScan _ hrun ih => exact hfetch (σ := opened _ _ _ _) ih hrun
  | next _ hrun ih => exact hfetch ih hrun
  | closeScan _ ih => exact ih

theorem Pinning.nextCalls (k : ℕ) : ∀ {σ : RecordFileScanner R} {files : DataFiles R},
    σ.Pinning → nextCalls k σ files = some (σ', files') → σ'.Pinning := by
  induction k with
  | zero =>
    intro σ files hσ h
    obtain ⟨rfl, rfl⟩ := Prod.mk.inj (Option.some.inj h)
    exact hσ
  | succ k ih =>
    intro σ files hσ h
    obtain ⟨r, hfetch, h⟩ := Option.bind_eq_some_iff.mp h
    exact ih (hσ.fetchNextRecord hfetch) h

/-- A scanner without a page that finds none stays so. -/
theorem Pristine.fetchNextRecord_of_atEnd (hσ : σ.Pristine) (hend : σ.AtEnd files) :
    σ.fetchNextRecord files = some ({ σ with nextRecord := none }, files) := by
  unfold RecordFileScanner.fetchNextRecord fetchPages
  rw [hσ.2]
  dsimp only
  rw [hend]

theorem Pristine.nextCalls_of_atEnd (hσ : σ.Pristine) (hend : σ.AtEnd files)
    (hnext : σ.nextRecord = none) (k : ℕ) : RecordFileScanner.nextCalls k σ files =
      some (σ, files) := by
  induction k with
  | zero => rfl
  | succ k ih =>
    have hsame : ({ σ with nextRecord := none } : RecordFileScanner R) = σ := by
      rw [← hnext]
    unfold RecordFileScanner.nextCalls
    rw [hσ.fetchNextRecord_of_atEnd hend, hsame]
    exact ih

/-- The first search of a scan finds no page if an iterator visits none. -/
theorem opened_atEnd_iff : (σ.opened files pool filter).AtEnd files ↔
    RecordFile.scanPages (files pool).header = [] := by
  show nextSettedBit (files pool).header.bitmap (files pool).header.pageCount (0 + 1) = none ↔ _
  unfold RecordFile.scanPages RecordFile.pagesFrom
  split
  · rename_i hnone
    exact iff_of_true hnone rfl
  · rename_i p hsome
    rw [hsome]
    exact iff_of_false nofun (List.cons_ne_nil _ _)

/-- A scanner can be opened again if and only if it has not pinned a page before the scan, and the
file of the scan has no page that is visited. -/
theorem reopens_iff (hσ : Reachable σ) (files : DataFiles R) (pool : ℕ)
    (filter : Option (RID × R → Bool)) (k pool' : ℕ) (filter' : Option (RID × R → Bool)) :
    Reopens σ files pool filter k pool' filter' ↔
      σ.recordPageHandler = none ∧ RecordFile.scanPages (files pool).header = [] := by
  rw [← @opened_atEnd_iff R σ files pool filter]
  constructor
  · rintro ⟨σ', files', hrun, hhandler, -⟩
    obtain ⟨r, hopen, hcalls⟩ := Option.bind_eq_some_iff.mp hrun
    rw [openScan_eq] at hopen
    have hnot : ¬ r.1.Pinning := fun hpinning => (hpinning.nextCalls k hcalls).1 hhandler
    rcases hσ.cases_pinning with hpristine | hpinning
    · refine ⟨hpristine.1, ?_⟩
      rcases Pristine.fetchNextRecord (σ := σ.opened files pool filter) hpristine hopen with
        ⟨hend, -⟩ | ⟨-, hpinning⟩
      · exact hend
      · exact absurd hpinning hnot
    · exact absurd (Pinning.fetchNextRecord (σ := σ.opened files pool filter) hpinning hopen) hnot
  · rintro ⟨hhandler, hend⟩
    have hpristine : σ.Pristine := by
      rcases hσ.cases_pinning with hpristine | hpinning
      · exact hpristine
      · exact absurd hhandler hpinning.1
    have hopen : σ.openScan files pool filter =
        some ({ σ.opened files pool filter with nextRecord := none }, files) :=
      Pristine.fetchNextRecord_of_atEnd (σ := σ.opened files pool filter) hpristine hend
    have hcalls := Pristine.nextCalls_of_atEnd
      (σ := { σ.opened files pool filter with nextRecord := none }) hpristine hend rfl k
    refine ⟨{ σ.opened files pool filter with nextRecord := none }, files, ?_, hhandler,
      fun fuel => ?_⟩
    · rw [hopen, Option.bind_some]
      exact hcalls
    · have hsame : ({ σ.opened files pool filter with
          nextRecord := none } : RecordFileScanner R).closeScan.opened files pool' filter' =
          fresh.opened files pool' filter' := by
        unfold opened closeScan
        rw [hpristine.1, hpristine.2]
        rfl
      unfold scanWith
      rw [openScan_eq, openScan_eq, hsame]

/-- The first file has no page of records, the second one has three records. -/
def emptyAndThree : DataFiles ℕ
  | 0 => { threeRecordFile with header := ⟨1, 1, fun i => i = 0⟩ }
  | _ => threeRecordFile

/-- After a scan of the first file the scanner returns the records of the second one. -/
theorem reopens_empty_file :
    Reopens fresh emptyAndThree 0 none 1 1 none ∧
    ((fresh.openScan emptyAndThree 0 none).bind fun r =>
        (nextCalls 1 r.1 r.2).bind fun q => q.1.closeScan.scanWith q.2 1 none 9) =
      some [(⟨1, 0⟩, 0), (⟨1, 2⟩, 2), (⟨3, 1⟩, 11)] :=
  ⟨(reopens_iff .fresh emptyAndThree 0 none 1 1 none).mpr ⟨rfl, by decide⟩, by decide⟩

/-- The scanner is closed before it has returned a record. It has page 1 pinned, and the scan that
follows returns the second record of this page twice. -/
theorem reopened_scan_repeats :
    ¬ Reopens fresh (fun _ => threeRecordFile) 0 none 0 0 none ∧
    ((fresh.openScan (fun _ => threeRecordFile) 0 none).bind fun r =>
        r.1.closeScan.scanWith r.2 0 none 9) =
      some [(⟨1, 2⟩, 2), (⟨1, 0⟩, 0), (⟨1, 2⟩, 2), (⟨3, 1⟩, 11)] ∧
    fresh.scanWith (fun _ => threeRecordFile) 0 none 9 =
      some [(⟨1, 0⟩, 0), (⟨1, 2⟩, 2), (⟨3, 1⟩, 11)] ∧
    ((fresh.openScan (fun _ => threeRecordFile) 0 none).map fun r =>
        r.1.closeScan.recordPageHandler) = some (some (0, 1)) := by
  refine ⟨?_, by decide, by decide, by decide⟩
  rintro ⟨σ', files', hrun, hhandler, -⟩
  have hpinned : ((fresh.openScan (fun _ => threeRecordFile) 0 none).map fun r =>
      r.1.closeScan.recordPageHandler) = some (some (0, 1)) := by decide
  obtain ⟨r, hopen, hcalls⟩ := Option.bind_eq_some_iff.mp hrun
  obtain ⟨rfl, rfl⟩ := Prod.mk.inj (Option.some.inj hcalls)
  rw [hopen, Option.map_some, hhandler] at hpinned
  cases hpinned

end RecordFileScanner

end Miniob.Storage.Record
