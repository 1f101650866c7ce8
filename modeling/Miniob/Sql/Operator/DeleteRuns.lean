import Miniob.Sql.Operator.DeleteOper

/-!
# Runs of a deletion

The loop of the operator over a scan that has some rows to read. The rows are read in their order,
each of them once, and a row may be deleted when it has been read.

* `filter_error`: the codes of a condition that has no value.
* `removed`: what is left of the records when the rows that match are deleted.
* `ScanSpec`: what the operator relies on; `deleteNext_spec`: what it does.
* `tableScanSpec`: a scan of the data file is such a scan, whatever is deleted.
* `deleteByTable_iff`: when a statement with such a scan does what it is for.
-/

namespace Miniob.Sql

open Miniob.Storage.Common Miniob.Storage.Index Miniob.Storage.Record Miniob.Storage.Transaction

/-! ## Conditions without a value -/

mutual

/-- An expression has no value because a column is missing or a cast is not possible. By recursion
on the expression. -/
theorem Expression.getValue_error {tuple : Tuple} {rc : RC} : ∀ {e : Expression},
    e.getValue tuple = .error rc → rc = .notfound ∨ rc = .internal
  | .field field, h => by
    rw [Expression.getValue] at h
    by_cases hhas : tuple.Has field
    · obtain ⟨cell, hcell⟩ := hhas
      rw [hcell] at h
      cases h
    · rw [Tuple.findCell_of_not_has hhas] at h
      cases h
      exact Or.inl rfl
  | .value cell, h => by
    rw [Expression.getValue] at h
    cases h
  | .cast castType child, h => by
    rw [Expression.getValue] at h
    obtain hchild | ⟨cell, -, h⟩ := bind_error h
    · exact Expression.getValue_error hchild
    · split_ifs at h
      all_goals cases h
      exact Or.inr rfl
  | .comparison comp left right, h => by
    rw [Expression.getValue] at h
    obtain hleft | ⟨leftCell, -, h⟩ := bind_error h
    · exact Expression.getValue_error hleft
    · obtain hright | ⟨rightCell, -, h⟩ := bind_error h
      · exact Expression.getValue_error hright
      · cases h
  | .conjunction _ [], h => by
    rw [Expression.getValue] at h
    cases h
  | .conjunction type (child :: children), h => by
    rw [Expression.getValue] at h
    exact getChildren_error h

theorem getChildren_error {tuple : Tuple} {type : ConjunctionType} {rc : RC} :
    ∀ {children : List Expression}, getChildren tuple type children = .error rc →
      rc = .notfound ∨ rc = .internal
  | [], h => by
    rw [getChildren] at h
    cases h
  | child :: children, h => by
    rw [getChildren] at h
    obtain hchild | ⟨cell, -, h⟩ := bind_error h
    · exact Expression.getValue_error hchild
    · dsimp only at h
      split_ifs at h
      · cases h
      · exact getChildren_error h

end

/-- A condition that has no value is an error. By induction on the conditions. -/
theorem filterScan_error {tuple : Tuple} {rc : RC} {predicates : List Expression}
    (h : filterScan tuple predicates = .error rc) : rc ≠ .success ∧ rc ≠ .recordEof := by
  induction predicates with
  | nil => cases h
  | cons e predicates ih =>
    rw [filterScan] at h
    obtain hvalue | ⟨cell, -, h⟩ := bind_error h
    · rcases Expression.getValue_error hvalue with rfl | rfl
      · exact ⟨by decide, by decide⟩
      · exact ⟨by decide, by decide⟩
    · split_ifs at h
      · exact ih h
      · cases h

namespace DeletePlan

variable {S V : Type} {q : DeletePlan V} {row : Row V} {rows pre post : List (Row V)}

theorem accepts_of_ok {result : Bool} (h : q.filter row = .ok result) : q.accepts row = result := by
  rw [accepts, h]

theorem filter_error {rc : RC} (h : q.filter row = .error rc) : rc ≠ .success ∧ rc ≠ .recordEof :=
  filterScan_error h

/-! ## What is left of the records -/

/-- The records without those of the rows that match. -/
def removed (q : DeletePlan V) (rows : List (Row V)) (records : RID → Option (RecordData V)) :
    RID → Option (RecordData V) := fun rid =>
  if ∃ row ∈ rows, row.1 = rid ∧ q.accepts row = true then none else records rid

theorem removed_nil (records : RID → Option (RecordData V)) : q.removed [] records = records := by
  funext rid
  exact if_neg fun ⟨_, hrow, _⟩ => absurd hrow List.not_mem_nil

/-- A row that does not match leaves the records. -/
theorem removed_cons_of_rejected (h : q.accepts row = false)
    (records : RID → Option (RecordData V)) :
    q.removed (row :: rows) records = q.removed rows records := by
  funext rid
  refine if_congr ?_ rfl rfl
  simp only [List.mem_cons, exists_eq_or_imp, h, Bool.false_eq_true, and_false, false_or]

/-- A row that matches is deleted. -/
theorem removed_cons_of_accepted (h : q.accepts row = true)
    (records : RID → Option (RecordData V)) :
    q.removed (row :: rows) records = q.removed rows (Function.update records row.1 none) := by
  funext rid
  unfold removed
  simp only [List.mem_cons, exists_eq_or_imp, h, and_true]
  by_cases hrid : row.1 = rid
  · subst hrid
    rw [Function.update_self, if_pos (Or.inl rfl), ite_self]
  · rw [Function.update_of_ne (Ne.symm hrid)]
    exact if_congr (or_iff_right hrid) rfl rfl

/-- Exactly the rows that match are gone if and only if the list has all of them. -/
theorem removed_eq_iff {records : RID → Option (RecordData V)}
    (hrows : ∀ row ∈ rows, records row.1 = some row.2) :
    (q.removed rows records = fun rid => (records rid).filter fun data => !q.accepts (rid, data)) ↔
      ∀ rid data, records rid = some data → q.accepts (rid, data) = true → (rid, data) ∈ rows := by
  constructor
  · intro heq rid data hrid haccept
    have hgone : (records rid).filter (fun data => !q.accepts (rid, data)) = none := by
      rw [hrid, Option.filter_some, if_neg (by simp [haccept])]
    rw [← congrFun heq rid, removed] at hgone
    split_ifs at hgone with hmem
    · obtain ⟨row, hrow, rfl, -⟩ := hmem
      have hdata : row.2 = data := by
        have := hrows row hrow
        rw [hrid] at this
        exact (Option.some.inj this).symm
      rw [← hdata]
      exact hrow
    · rw [hrid] at hgone
      cases hgone
  · intro hall
    funext rid
    unfold removed
    cases hrid : records rid with
    | none => rw [ite_self, Option.filter_none]
    | some data =>
      have hiff : (∃ row ∈ rows, row.1 = rid ∧ q.accepts row = true) ↔
          q.accepts (rid, data) = true := by
        constructor
        · rintro ⟨row, hrow, rfl, haccept⟩
          have hdata : row.2 = data := by
            have := hrows row hrow
            rw [hrid] at this
            exact (Option.some.inj this).symm
          rw [← hdata]
          exact haccept
        · exact fun haccept => ⟨_, hall rid data hrid haccept, rfl, haccept⟩
      rw [if_congr hiff rfl rfl, Option.filter_some]
      cases q.accepts (rid, data) <;> rfl

/-! ## The loop -/

/-- Neither a call of the scanner fails on the way through the rows, from a number of calls on, nor
a condition. -/
def Clean (q : DeletePlan V) (calls : ℕ) (rows : List (Row V)) : Prop :=
  (∀ k < rows.length, q.fault (calls + k) = none) ∧ ∀ row ∈ rows, ∀ rc, q.filter row ≠ .error rc

theorem clean_cons {calls : ℕ} : q.Clean calls (row :: rows) ↔
    q.fault calls = none ∧ (∀ rc, q.filter row ≠ .error rc) ∧ q.Clean (calls + 1) rows := by
  constructor
  · rintro ⟨hfault, hfilter⟩
    refine ⟨hfault 0 (Nat.succ_pos _), hfilter row List.mem_cons_self, fun k hk => ?_,
      fun r hr => hfilter r (List.mem_cons_of_mem _ hr)⟩
    rw [Nat.add_right_comm, Nat.add_assoc]
    exact hfault (k + 1) (Nat.succ_lt_succ hk)
  · rintro ⟨hfirst, hrow, hfault, hfilter⟩
    constructor
    · intro k hk
      cases k with
      | zero => exact hfirst
      | succ k =>
        have := hfault k (Nat.lt_of_succ_lt_succ hk)
        rwa [Nat.add_right_comm, Nat.add_assoc] at this
    · intro r hr
      rcases List.mem_cons.mp hr with rfl | hr
      · exact hrow
      · exact hfilter r hr

/-- What the operator relies on: the scan stands in front of some rows, fetches the first of them
unless it fails, and may go on when the row that it has fetched is deleted and its place is kept. -/
structure ScanSpec (q : DeletePlan V) (scan : RowScan S V) (InPlace : S → S → Prop)
    (record : S → RID → Option (RecordData V)) (calls : S → ℕ) (Sound : S → Prop)
    (At : S → List (Row V) → Prop) (Fetched : S → Row V → List (Row V) → Prop) : Prop where
  /-- Behind the last row. -/
  fetchEnd : ∀ {s}, At s [] → ∃ s', scan.fetch s = some (.recordEof, none, s') ∧
    record s' = record s ∧ Sound s'
  /-- A call that fails. -/
  fetchFault : ∀ {s row rows rc}, At s (row :: rows) → q.fault (calls s) = some rc →
    ∃ s', scan.fetch s = some (rc.1, none, s')
  /-- The next row. -/
  fetchRow : ∀ {s row rows}, At s (row :: rows) → q.fault (calls s) = none →
    ∃ s', scan.fetch s = some (.success, some row, s') ∧ record s' = record s ∧
      calls s' = calls s + 1 ∧ Fetched s' row rows
  /-- The row is kept. -/
  keep : ∀ {s row rows}, Fetched s row rows → At s rows
  /-- The row is deleted. -/
  delete : ∀ {s row rows}, Fetched s row rows → ∃ s',
    scan.deleteRecord s row = some (.success, s') ∧
    record s' = Function.update (record s) row.1 none ∧ calls s' = calls s ∧
    (InPlace s s' → At s' rows)

section spec

variable {scan : RowScan S V} {InPlace : S → S → Prop} {record : S → RID → Option (RecordData V)}
  {calls : S → ℕ} {Sound : S → Prop} {At : S → List (Row V) → Prop}
  {Fetched : S → Row V → List (Row V) → Prop}

/-- The loop over the records finds the first row that matches, unless something fails before. By
induction on the rows. -/
theorem nextRow_spec (h : ScanSpec q scan InPlace record calls Sound At Fetched)
    (rows : List (Row V)) : ∀ {fuel : ℕ} {s : S}, At s rows → rows.length < fuel →
    (∃ s', q.nextRow scan fuel s = some (.recordEof, none, s') ∧ record s' = record s ∧ Sound s' ∧
      q.Clean (calls s) rows ∧ q.removed rows (record s) = record s) ∨
    (∃ rc s', q.nextRow scan fuel s = some (rc, none, s') ∧ (rc ≠ .success ∧ rc ≠ .recordEof) ∧
      ¬ q.Clean (calls s) rows) ∨
    ∃ row post s', q.nextRow scan fuel s = some (.success, some row, s') ∧ Fetched s' row post ∧
      post.length < rows.length ∧ record s' = record s ∧
      (q.Clean (calls s) rows ↔ q.Clean (calls s') post) ∧
      q.removed rows (record s) = q.removed post (Function.update (record s) row.1 none) := by
  induction rows with
  | nil =>
    intro fuel s hat hfuel
    obtain ⟨fuel, rfl⟩ := Nat.exists_eq_succ_of_ne_zero (Nat.ne_of_gt hfuel)
    obtain ⟨s', hfetch, hrecord, hsound⟩ := h.fetchEnd hat
    refine Or.inl ⟨s', ?_, hrecord, hsound, ⟨nofun, nofun⟩, removed_nil _⟩
    rw [nextRow, hfetch]
    rfl
  | cons row rows ih =>
    intro fuel s hat hfuel
    obtain ⟨fuel, rfl⟩ := Nat.exists_eq_succ_of_ne_zero (Nat.ne_of_gt (Nat.zero_lt_of_lt hfuel))
    cases hfault : q.fault (calls s) with
    | some rc =>
      obtain ⟨s', hfetch⟩ := h.fetchFault hat hfault
      refine Or.inr (Or.inl ⟨rc.1, s', ?_, rc.2, fun hclean => ?_⟩)
      · rw [nextRow, hfetch]
        simp [rc.2.1]
      · rw [(clean_cons.mp hclean).1] at hfault
        cases hfault
    | none =>
      obtain ⟨s₁, hfetch, hrecord, hcalls, hfetched⟩ := h.fetchRow hat hfault
      cases hfilter : q.filter row with
      | error rc =>
        refine Or.inr (Or.inl ⟨rc, s₁, ?_, filter_error hfilter, fun hclean => ?_⟩)
        · rw [nextRow, hfetch]
          simp [hfilter]
        · exact (clean_cons.mp hclean).2.1 rc hfilter
      | ok result =>
        have hclean : q.Clean (calls s) (row :: rows) ↔ q.Clean (calls s₁) rows := by
          rw [clean_cons, hcalls]
          exact ⟨fun hc => hc.2.2, fun hc => ⟨hfault, fun rc => by simp [hfilter], hc⟩⟩
        have haccepts := accepts_of_ok hfilter
        cases result with
        | true =>
          refine Or.inr (Or.inr ⟨row, rows, s₁, ?_, hfetched, Nat.lt_succ_self _, hrecord, hclean,
            removed_cons_of_accepted haccepts _⟩)
          rw [nextRow, hfetch]
          simp [hfilter]
        | false =>
          have hrun : q.nextRow scan (fuel + 1) s = q.nextRow scan fuel s₁ := by
            rw [nextRow, hfetch]
            simp [hfilter]
          rw [hrun, hclean, removed_cons_of_rejected haccepts, ← hrecord]
          rcases ih (h.keep hfetched) (Nat.lt_of_succ_lt_succ hfuel) with hend | herror | hrow
          · exact Or.inl hend
          · exact Or.inr (Or.inl herror)
          · obtain ⟨row', post, s₂, hnext, hfetched', hlen, hrest⟩ := hrow
            exact Or.inr (Or.inr ⟨row', post, s₂, hnext, hfetched', Nat.lt_succ_of_lt hlen, hrest⟩)

/-- **The operator.** It ends whatever happens; its child has come to its end if and only if nothing
has failed, and then the rows that match are gone. By induction on the deletions. -/
theorem deleteNext_spec (h : ScanSpec q scan InPlace record calls Sound At Fetched) {fuel : ℕ}
    (n : ℕ) : ∀ {s : S} {rows : List (Row V)}, At s rows →
    q.Undisturbed scan InPlace fuel n s → rows.length < n → rows.length < fuel →
    ∃ last s', q.deleteNext scan fuel n s = some (.recordEof, last, s') ∧
      (last = .recordEof ↔ q.Clean (calls s) rows) ∧
      (q.Clean (calls s) rows → record s' = q.removed rows (record s) ∧ Sound s') := by
  induction n with
  | zero => exact fun _ _ hlen => absurd hlen (Nat.not_lt_zero _)
  | succ n ih =>
    intro s rows hat hplace hlen hfuel
    rw [deleteNext]
    rcases nextRow_spec h rows hat hfuel with ⟨s₁, hnext, hrecord, hsound, hclean, hremoved⟩ |
      ⟨rc, s₁, hnext, hrc, hclean⟩ |
      ⟨row, post, s₁, hnext, hfetched, hpost, hrecord, hclean, hremoved⟩
    · refine ⟨.recordEof, s₁, ?_, iff_of_true rfl hclean, fun _ => ⟨?_, hsound⟩⟩
      · rw [hnext]
        rfl
      · rw [hrecord, hremoved]
    · refine ⟨rc, s₁, ?_, iff_of_false hrc.2 hclean, fun hc => absurd hc hclean⟩
      rw [hnext]
      simp [hrc.1]
    · obtain ⟨s₂, hdelete, hrecord₂, hcalls, hkept⟩ := h.delete hfetched
      obtain ⟨hin, hrest⟩ := hplace _ hnext row rfl _ hdelete
      obtain ⟨last, s', hrun, hlast, hdone⟩ := ih (hkept hin) hrest (by omega) (by omega)
      refine ⟨last, s', ?_, ?_, ?_⟩
      · rw [hnext]
        simp [hdelete, hrun]
      · rw [hlast, hclean, hcalls]
      · rw [hclean, hremoved, ← hcalls, ← hrecord, ← hrecord₂]
        exact hdone

end spec

/-! ## Scans of the data file -/

section tableScan

variable {A : Type} [LinearOrder A] {height fuel : ℕ}

/-- The rows are records of the table, each of them once. -/
structure RowsOf (t : OpenTable V A) (height : ℕ) (rows : List (Row V)) : Prop where
  /-- The indexes have the entries of the records. -/
  consistent : t.Consistent height
  /-- The table has the rows. -/
  record : ∀ row ∈ rows, t.record row.1 = some row.2
  /-- No row comes twice. -/
  nodup : (rows.map Prod.fst).Nodup

theorem RowsOf.tail {t : OpenTable V A} (h : RowsOf t height (row :: rows)) :
    RowsOf t height rows where
  consistent := h.consistent
  record r hr := h.record r (List.mem_cons_of_mem _ hr)
  nodup := (List.nodup_cons.mp h.nodup).2

/-- What the scanner does to the files changes no record. -/
theorem RowsOf.setFiles {t : OpenTable V A} {files : DataFiles (RecordData V)}
    (h : RowsOf t height rows) (hsame : (t.files t.pool).SamePages (files t.pool)) :
    RowsOf { t with files := files } height rows := by
  have hrecord : ({ t with files := files } : OpenTable V A).record = t.record := hsame.record
  exact ⟨fun index hindex => hrecord ▸ h.consistent index hindex, hrecord ▸ h.record, h.nodup⟩

/-- The other rows stay when a row is deleted. -/
theorem RowsOf.delete [Inhabited A] {t t' : OpenTable V A} (h : RowsOf t height (row :: rows))
    (hdeleted : RowDeleted fuel t row height t') : RowsOf t' height rows where
  consistent := hdeleted.consistent
  record r hr := by
    have hne : r.1 ≠ row.1 := fun heq =>
      (List.nodup_cons.mp h.nodup).1 (heq ▸ List.mem_map_of_mem hr)
    rw [hdeleted.record, Function.update_of_ne hne]
    exact h.record r (List.mem_cons_of_mem _ hr)
  nodup := (List.nodup_cons.mp h.nodup).2

/-- The scanner holds the first of the rows, or there are none. -/
structure TableScanAt (height : ℕ) (s : OpenTableScan V A) (rows : List (Row V)) : Prop where
  /-- The rows. -/
  ofTable : RowsOf s.table height rows
  /-- The scanner. -/
  scanner : s.recordScanner.nextRecord = none ∧ rows = [] ∨ ∃ it start,
    RecordFileScanner.Fetched s.table.pool (fun _ => true) s.recordScanner s.table.files it start
      rows

/-- The scanner has returned a row and is behind it. -/
structure TableScanFetched (height : ℕ) (s : OpenTableScan V A) (row : Row V)
    (rows : List (Row V)) : Prop where
  /-- The rows. -/
  ofTable : RowsOf s.table height (row :: rows)
  /-- The scanner. -/
  scanner : s.recordScanner.nextRecord = none ∧ rows = [] ∨ ∃ it start,
    RecordFileScanner.Fetched s.table.pool (fun _ => true) s.recordScanner s.table.files it start
      rows ∧ RecordFileScanner.Passed s.recordScanner start row.1

variable [Inhabited A]

/-- The scanner fetches the first row and moves on to the next one. -/
theorem TableScanAt.fetchRow {s : OpenTableScan V A} (h : TableScanAt height s (row :: rows))
    (hfault : q.fault s.calls = none) :
    ∃ s', (q.tableScan fuel).fetch s = some (.success, some row, s') ∧
      s'.table.record = s.table.record ∧ s'.calls = s.calls + 1 ∧
      TableScanFetched height s' row rows := by
  rcases h.scanner with ⟨-, hnil⟩ | ⟨it, start, hscanning, record, hnext, hpassed, hrows⟩
  · cases hnil
  obtain ⟨rfl, rfl⟩ := List.cons.inj hrows
  obtain ⟨scanner, files, hfetch, hcases⟩ := hscanning.fetchNextRecord
  have hsame : (s.table.files s.table.pool).SamePages (files s.table.pool) :=
    RecordFileScanner.samePages_fetchNextRecord hfetch
  refine ⟨⟨{ s.table with files := files }, scanner, s.calls + 1⟩, ?_, hsame.record, rfl,
    h.ofTable.setFiles hsame, ?_⟩
  · simp [tableScan, hnext, hfault, hfetch]
  · rcases hcases with hend | ⟨it', start', hfetched, hbehind⟩
    · exact Or.inl hend
    · exact Or.inr ⟨it', start', hfetched, hbehind _ hpassed⟩

/-- A row that the scanner has passed may be deleted. -/
theorem TableScanFetched.delete {s : OpenTableScan V A} (h : TableScanFetched height s row rows)
    (hfuel : height ≤ fuel) :
    ∃ s', (q.tableScan fuel).deleteRecord s row = some (.success, s') ∧
      s'.table.record = Function.update s.table.record row.1 none ∧ s'.calls = s.calls ∧
      TableScanAt height s' rows := by
  obtain ⟨t', hdeleted⟩ := OpenTable.deleteRecord_ok h.ofTable.consistent
    (h.ofTable.record row List.mem_cons_self) hfuel
  refine ⟨{ s with table := t' }, ?_, hdeleted.record, rfl, h.ofTable.delete hdeleted, ?_⟩
  · show (s.table.deleteRecord fuel row).map _ = _
    rw [hdeleted.run]
    rfl
  · rcases h.scanner with hend | ⟨it, start, ⟨hscanning, record, hnext, hpassed', hrows⟩, hpassed⟩
    · exact Or.inl hend
    · obtain ⟨hscanning', hahead⟩ := hscanning.delete hpassed
      refine Or.inr ⟨it, start, ?_⟩
      show RecordFileScanner.Fetched t'.pool _ s.recordScanner t'.files it start rows
      rw [hdeleted.pool, hdeleted.files]
      exact ⟨hscanning', record, hnext, hpassed', hahead ▸ hrows⟩

/-- A scan of the data file keeps its place whatever is deleted. -/
theorem tableScanSpec (q : DeletePlan V) (hfuel : height ≤ fuel) :
    ScanSpec q (q.tableScan fuel) (fun _ _ => True) (fun s : OpenTableScan V A => s.table.record)
      OpenTableScan.calls (fun s => s.table.Consistent height) (TableScanAt height)
      (TableScanFetched height) where
  fetchEnd {s} h := by
    rcases h.scanner with ⟨hnext, -⟩ | ⟨it, start, -, record, -, -, hrows⟩
    · exact ⟨s, by simp [tableScan, hnext], rfl, h.ofTable.consistent⟩
    · cases hrows
  fetchFault {s row rows rc} h hfault := by
    rcases h.scanner with ⟨-, hnil⟩ | ⟨it, start, -, record, hnext, -, -⟩
    · cases hnil
    · exact ⟨{ s with calls := s.calls + 1 }, by simp [tableScan, hnext, hfault]⟩
  fetchRow h hfault := h.fetchRow hfault
  keep h := ⟨h.ofTable.tail, h.scanner.imp id fun ⟨it, start, hfetched, _⟩ => ⟨it, start, hfetched⟩⟩
  delete h := by
    obtain ⟨s', hdelete, hrecord, hcalls, hat⟩ := h.delete (q := q) hfuel
    exact ⟨s', hdelete, hrecord, hcalls, fun _ => hat⟩

theorem undisturbed_true (scan : RowScan S V) (n : ℕ) (s : S) :
    q.Undisturbed scan (fun _ _ => True) fuel n s := by
  induction n generalizing s with
  | zero => trivial
  | succ n ih => exact fun _ _ _ _ _ _ => ⟨trivial, ih _⟩

/-- The bit of the page of the record is set, so that a scan visits the page. -/
def Listed (t : OpenTable V A) (rid : RID) : Prop :=
  (t.files t.pool).header.bitmap rid.pageNum.toNat = true

omit [LinearOrder A] [Inhabited A] in
/-- A scan of the data file returns the records of the pages that it visits. -/
theorem mem_visible {t : OpenTable V A} {rid : RID} {data : RecordData V} :
    (rid, data) ∈ t.visible ↔ t.record rid = some data ∧ Listed t rid := by
  unfold OpenTable.visible OpenTable.record Listed
  rw [mem_fileRecords, PinnedFile.record_eq_some]
  constructor
  · rintro ⟨p, slot, heq, ⟨⟨hpos, hlt, hbit⟩, hused⟩, -⟩
    obtain ⟨rfl, rfl⟩ := Prod.mk.inj heq
    exact ⟨⟨p, slot, rfl, by omega, by omega, hused, rfl⟩, hbit⟩
  · rintro ⟨⟨p, slot, rfl, hpos, hlt, hused, rfl⟩, hbit⟩
    exact ⟨p, slot, rfl, ⟨⟨by omega, by omega, hbit⟩, hused⟩, rfl⟩

omit [LinearOrder A] [Inhabited A] in
/-- No record is returned twice. -/
theorem nodup_visible (t : OpenTable V A) : (t.visible.map Prod.fst).Nodup := by
  rw [List.Nodup, List.pairwise_map]
  refine (fileRecords_sorted _ _).imp fun {r₁ r₂} hbefore heq => ?_
  unfold ridBefore at hbefore
  rw [heq] at hbefore
  omega

/-- The scan of the data file reads what it has to: no call of the scanner fails on the way through
the records that it visits, nor a condition, and it visits the records that match. -/
def TableScanReads (q : DeletePlan V) (t : OpenTable V A) : Prop :=
  q.Clean 0 t.visible ∧ ∀ rid data, t.record rid = some data → q.accepts (rid, data) = true →
    Listed t rid

/-- **DELETE with a scan of the data file.** -/
theorem deleteByTable_iff (q : DeletePlan V) {t : OpenTable V A} (hc : t.Consistent height)
    (hbit : (t.files t.pool).header.bitmap 0 = true) (hheight : height ≤ fuel)
    (hfuel : t.visible.length < fuel) :
    q.DeletesMatching t (q.deleteByTable fuel t) ↔ q.TableScanReads t := by
  obtain ⟨scanner, files, hopen, hcases⟩ := openScan_spec none hbit
  have hsame : (t.files t.pool).SamePages (files t.pool) :=
    RecordFileScanner.samePages_fetchNextRecord hopen
  have hrows : ∀ row ∈ t.visible, t.record row.1 = some row.2 :=
    fun row hrow => (mem_visible.mp hrow).1
  have hat : TableScanAt height ⟨{ t with files := files }, scanner, 0⟩ t.visible :=
    ⟨RowsOf.setFiles ⟨hc, hrows, nodup_visible t⟩ hsame, hcases⟩
  obtain ⟨last, s', hrun, hlast, hdone⟩ := deleteNext_spec (q.tableScanSpec hheight) fuel hat
    (undisturbed_true _ _ _) hfuel hfuel
  have hrecord : ({ t with files := files } : OpenTable V A).record = t.record := hsame.record
  have hresult : q.deleteByTable fuel t = some (.recordEof, last, s'.table) := by
    rw [deleteByTable, hopen]
    simp [hrun]
  have hall : (∀ rid data, t.record rid = some data → q.accepts (rid, data) = true →
      Listed t rid) ↔ ∀ rid data, t.record rid = some data → q.accepts (rid, data) = true →
        (rid, data) ∈ t.visible := by
    refine forall₄_congr fun rid data hrid haccept => ?_
    rw [mem_visible]
    exact (and_iff_right hrid).symm
  rw [TableScanReads, hall, ← removed_eq_iff hrows]
  simp only [hrecord] at hdone
  constructor
  · rintro ⟨rc, last', t', heq, hmet⟩
    rw [hresult] at heq
    simp only [Option.some.injEq, Prod.mk.injEq] at heq
    obtain ⟨rfl, rfl, rfl⟩ := heq
    obtain ⟨hend, hfinal, -⟩ := hmet rfl
    have hclean := hlast.mp hend
    exact ⟨hclean, (hdone hclean).1.symm.trans hfinal⟩
  · rintro ⟨hclean, hfinal⟩
    obtain ⟨hleft, hconsistent⟩ := hdone hclean
    exact ⟨_, _, _, hresult, fun _ => ⟨hlast.mpr hclean, hleft.trans hfinal, height, hconsistent⟩⟩

end tableScan

end DeletePlan

end Miniob.Sql
