import Miniob.Lib.Steps
import Miniob.Storage.Common.ScanAgreement

/-!
# Two transactions on one table

Two transaction objects work on a table in turns. Each may run several transactions, one after the
other. A record carries the number of the transaction that has inserted it until that transaction
ends. The number is 0 in every later transaction of an object until it deletes something, so that
its records look like committed ones; and what a transaction deletes is gone at once for everybody.

* `Sessions`, `Action`: the two objects and what they do.
* `Pending`: what an object has inserted and deleted since its last commit or rollback.
* `Action.Allowed`: the steps after which the other object sees what it should.
* `scan_isolated`: in a run of such steps, every scan is isolated from the other transaction.
-/

namespace Miniob.Storage.Common

open Miniob.Lib Miniob.Storage.Index Miniob.Storage.Record Miniob.Storage.Transaction

/-- What a transaction has done and not committed. -/
structure Pending (V : Type) where
  /-- The records that it has inserted and that are still there. -/
  inserted : List RID
  /-- The records of others that it has deleted. -/
  deleted : List (RID × RecordData V)

/-- A transaction that has done nothing. -/
def Pending.none {V : Type} : Pending V := ⟨[], []⟩

/-- Records that are gone are not pending. -/
def Pending.keep {V : Type} (p : Pending V) (kept : RID → Bool) : Pending V :=
  { p with inserted := p.inserted.filter kept }

variable {V A C : Type} [LinearOrder A]

/-- Two transaction objects that work on a table. -/
structure Sessions (V A : Type) [LinearOrder A] where
  /-- The table. -/
  table : Table V A
  /-- The number that was given to a transaction last. -/
  counter : BitVec 32
  /-- The transaction objects. -/
  trx : Bool → Trx
  /-- What they have done and not committed. -/
  pending : Bool → Pending V

/-- What one of them does. -/
inductive Action (V C : Type)
  /-- `Table::insert_record(trx, record)` -/
  | insert (who : Bool) (data : RecordData V)
  /-- `Table::delete_record(trx, record)` -/
  | delete (who : Bool) (rid : RID) (data : RecordData V)
  /-- `Trx::commit()` -/
  | commit (who : Bool) (order : List (RID × OperationType))
  /-- `Trx::rollback()` -/
  | rollback (who : Bool) (order : List (RID × OperationType))
  /-- `Table::scan_record(trx, filter, limit, ...)` -/
  | scan (who : Bool) (filter : Option (ConditionFilter C)) (limit : Int)

namespace Sessions

/-- The objects at the beginning. -/
def start (t : Table V A) (counter : BitVec 32) : Sessions V A where
  table := t
  counter := counter + 1 + 1
  trx := fun who => if who then (Trx.new (counter + 1)).1 else (Trx.new counter).1
  pending := fun _ => .none

/-- The state after a step of one of them. -/
def advance (s : Sessions V A) (who : Bool) (t : Table V A) (trx : Trx) (counter : BitVec 32)
    (kept : RID → Bool) (p : Pending V) : Sessions V A where
  table := t
  counter := counter
  trx := Function.update s.trx who trx
  pending := Function.update (fun who' => (s.pending who').keep kept) who p

variable [Inhabited V] [DecidableEq V]

/-- What is deleted is a record of the table, and a transaction ends with its operations in some
order. -/
def step (s : Sessions V A) : Action V C → Option (Sessions V A)
  | .insert who data =>
    match s.table.insertRecord (some (s.trx who)) data .success with
    | some (.ok rid, t, some trx) =>
      let kept := fun r => r ≠ rid ∧ (t.record r).isSome
      let p := (s.pending who).keep kept
      some (s.advance who t trx s.counter kept { p with inserted := rid :: p.inserted })
    | some (.error _, t, some trx) =>
      let kept := fun r => (t.record r).isSome
      some (s.advance who t trx s.counter kept ((s.pending who).keep kept))
    | _ => none
  | .delete who rid data =>
    if s.table.record rid = some data then
      match s.table.deleteRecord s.counter (some (s.trx who)) rid data .success with
      | (.success, t, some trx, counter) =>
        let kept := fun r => (t.record r).isSome
        let p := s.pending who
        let deleted := if rid ∈ p.inserted then p.deleted else (rid, data) :: p.deleted
        some (s.advance who t trx counter kept ⟨p.inserted.filter kept, deleted⟩)
      | _ => none
    else none
  | .commit who order =>
    if order.Perm (s.trx who).operations then
      ((s.trx who).commit order s.table).map fun (_, t, trx) =>
        s.advance who t trx s.counter (fun r => (t.record r).isSome) .none
    else none
  | .rollback who order =>
    if order.Perm (s.trx who).operations then
      ((s.trx who).rollback order s.table).map fun (_, t, trx) =>
        s.advance who t trx s.counter (fun r => (t.record r).isSome) .none
    else none
  | .scan _ _ _ => some s

/-- A sequence of steps, in whatever order the two objects take them. -/
def run (actions : List (Action V C)) (s : Sessions V A) : Option (Sessions V A) :=
  actions.foldlM step s

/-- A scan returns no record that the other transaction has inserted and not committed, and every
record that it has deleted and not committed. -/
def Isolated [DecidableEq C] (s : Sessions V A) (m : TableMeta V A C) (who : Bool)
    (filter : Option (ConditionFilter C)) (limit : Int) : Prop :=
  ∃ rows, s.table.scanRecord m (some (s.trx who)) filter limit = some (.success, rows) ∧
    (∀ r ∈ rows, r.1 ∉ (s.pending !who).inserted) ∧
    (limit < 0 → ∀ r ∈ (s.pending !who).deleted,
      (filter.all fun f => f.filter m.cell r.2.values) = true → r ∈ rows)

omit [Inhabited V] [DecidableEq V] in
/-- The condition on a step: an insertion does not take a page from the file header that has
records, and the comparators order its keys; the numbers do not run out; and a scan comes when the
other transaction has deleted no record but its own and its records carry a number, and the ends of
its range are ordered. -/
def Allowed [DecidableEq C] (s : Sessions V A) (m : TableMeta V A C) : Action V C → Prop
  | .insert _ data => s.table.KeepsRecords ∧ s.table.OrdersKeys data.values
  | .delete who _ _ => (s.trx who).trxId = 0 → s.counter.toNat + 1 < 2147483648
  | .commit _ _ => True
  | .rollback _ _ => True
  | .scan who filter _ => (s.pending !who).deleted = [] ∧
      (∀ rid ∈ (s.pending !who).inserted, ∀ data, s.table.record rid = some data →
        data.trx ≠ 0) ∧ s.table.OrdersScan m filter

/-! ## What every step keeps -/

/-- The state between two steps. -/
structure Inv (m : TableMeta V A C) (s : Sessions V A) : Prop where
  consistent : s.table.Consistent
  describes : m.Describes s.table
  distinct : ∀ who, (s.trx who).Distinct
  /-- Operations are about slots. -/
  slot : ∀ who rid, (s.trx who).findOperation rid ≠ none → 0 ≤ rid.slotNum
  bound : ∀ who, (s.trx who).trxId.toNat ≤ s.counter.toNat
  small : s.counter.toNat < 2147483648
  /-- The two objects do not have the same number. -/
  ids : ∀ who, (s.trx who).trxId = (s.trx !who).trxId → (s.trx who).trxId = 0
  /-- A record that is pending carries the number of its transaction, or 0. -/
  pending : ∀ who, ∀ rid ∈ (s.pending who).inserted, ∃ data, s.table.record rid = some data ∧
    (data.trx = 0 ∨ data.trx = (s.trx who).trxId)

/-- What a step may do to the number of a transaction: keep it, reset it, or take the next one. -/
def NextId (s : Sessions V A) (who : Bool) (trxId counter : BitVec 32) : Prop :=
  (trxId = (s.trx who).trxId ∨ trxId = 0) ∧ counter = s.counter ∨
    trxId.toNat = s.counter.toNat + 1 ∧ counter = trxId ∧ counter.toNat < 2147483648

omit [Inhabited V] [DecidableEq V] in
/-- The number of the other transaction is a different one. -/
theorem Inv.nextId {m : TableMeta V A C} {s : Sessions V A} (h : s.Inv m) {who : Bool}
    {trxId counter : BitVec 32} (hid : s.NextId who trxId counter) :
    trxId.toNat ≤ counter.toNat ∧ counter.toNat < 2147483648 ∧
      s.counter.toNat ≤ counter.toNat ∧ (trxId = (s.trx !who).trxId → trxId = 0) := by
  rcases hid with ⟨hsame | hzero, rfl⟩ | ⟨hnext, rfl, hlt⟩
  · rw [hsame]
    exact ⟨h.bound who, h.small, le_rfl, h.ids who⟩
  · rw [hzero]
    exact ⟨by simp, h.small, le_rfl, fun _ => rfl⟩
  · refine ⟨le_rfl, hlt, by omega, ?_⟩
    intro heq
    have := h.bound !who
    rw [← heq] at this
    omega

omit [Inhabited V] [DecidableEq V] in
/-- A step keeps the invariant if it keeps the records that are pending, up to their number. -/
theorem Inv.advance {m : TableMeta V A C} {s : Sessions V A} (h : s.Inv m) {who : Bool}
    {t : Table V A} {trx : Trx} {counter : BitVec 32} {kept : RID → Bool} {p : Pending V}
    (hc : t.Consistent) (hshape : s.table.SameShape t) (hdist : trx.Distinct)
    (hslot : ∀ rid, trx.findOperation rid ≠ none → 0 ≤ rid.slotNum)
    (hid : s.NextId who trx.trxId counter)
    (hkept : ∀ rid data, kept rid = true → s.table.record rid = some data →
      ∃ data', t.record rid = some data' ∧ (data'.trx = 0 ∨ data'.trx = data.trx))
    (hp : ∀ rid ∈ p.inserted, ∃ data, t.record rid = some data ∧
      (data.trx = 0 ∨ data.trx = trx.trxId)) :
    (s.advance who t trx counter kept p).Inv m := by
  obtain ⟨hle, hsmall, hcounter, hother⟩ := h.nextId hid
  have htrx : ∀ who', (s.advance who t trx counter kept p).trx who' =
      if who' = who then trx else s.trx who' := by
    intro who'
    exact Function.update_apply ..
  have hnot : (!who) ≠ who := by cases who <;> simp
  refine ⟨hc, ?_, ?_, ?_, ?_, hsmall, ?_, ?_⟩
  · exact h.describes.sameShape hshape
  · intro who'
    rw [htrx]
    split
    · exact hdist
    · exact h.distinct who'
  · intro who' rid
    rw [htrx]
    split
    · exact hslot rid
    · exact h.slot who' rid
  · intro who'
    rw [htrx]
    split
    · exact hle
    · exact (h.bound who').trans hcounter
  · intro who'
    rw [htrx, htrx]
    by_cases hwho : who' = who
    · subst hwho
      rw [if_pos rfl, if_neg hnot]
      exact hother
    · obtain rfl : who' = !who := by cases who <;> cases who' <;> simp_all
      rw [if_neg hnot, if_pos (by simp)]
      intro heq
      exact heq.trans (hother heq.symm)
  · intro who' rid hrid
    rw [htrx]
    by_cases hwho : who' = who
    · subst hwho
      rw [if_pos rfl]
      simp only [Sessions.advance, Function.update_self] at hrid
      exact hp rid hrid
    · rw [if_neg hwho]
      simp only [Sessions.advance, Function.update_of_ne hwho, Pending.keep,
        List.mem_filter] at hrid
      obtain ⟨data, hdata, htrxId⟩ := h.pending who' rid hrid.1
      obtain ⟨data', hdata', htrxId'⟩ := hkept rid data hrid.2 hdata
      refine ⟨data', hdata', ?_⟩
      rcases htrxId' with hzero | hsame
      · exact Or.inl hzero
      · rwa [hsame]

variable {m : TableMeta V A C} {s s' : Sessions V A}

theorem Inv.insert (h : s.Inv m) {who : Bool} {data : RecordData V}
    (hallowed : s.table.KeepsRecords ∧ s.table.OrdersKeys data.values)
    (hstep : s.step (.insert who data : Action V C) = some s') : s'.Inv m := by
  simp only [step] at hstep
  rcases h.consistent.insertRecord hallowed.1 (s.trx who) hallowed.2 with
    ⟨rid, t, trx, heq, hc, hshape, hins, hfresh, hrec, -⟩ | ⟨rc, t, heq, hc, hshape, hrec, -⟩
  · rw [heq] at hstep
    cases hstep
    rcases (s.trx who).insertRecord_spec rid with ⟨-, hfail⟩ | ⟨-, x, hx, hxid, hxdist, hfind⟩
    · rw [hfail] at hins
      simp at hins
    rw [hx] at hins
    cases hins
    have hnew : t.record rid = some ((s.trx who).initTrxInfo data) := by
      rw [hrec, Function.update_self]
    have hold : ∀ r d, r ≠ rid → s.table.record r = some d → t.record r = some d := by
      intro r d hr hd
      rwa [hrec, Function.update_of_ne hr]
    refine h.advance hc hshape (hxdist (h.distinct who)) ?_ (Or.inl ⟨Or.inl hxid, rfl⟩) ?_ ?_
    · intro r hr
      rw [hfind] at hr
      by_cases hrr : r = rid
      · subst hrr
        obtain ⟨p, slot, rfl, -⟩ := RecordFile.record_eq_some hnew
        exact Int.natCast_nonneg slot
      · rw [if_neg hrr] at hr
        exact h.slot who r hr
    · intro r d hr hd
      exact ⟨d, hold r d (of_decide_eq_true hr).1 hd, Or.inr rfl⟩
    · intro r hr
      rcases List.mem_cons.mp hr with rfl | hr
      · exact ⟨_, hnew, Or.inr hxid.symm⟩
      · obtain ⟨hmem, hkept⟩ := List.mem_filter.mp hr
        obtain ⟨d, hd, hid⟩ := h.pending who r hmem
        exact ⟨d, hold r d (of_decide_eq_true hkept).1 hd, hxid ▸ hid⟩
  · rw [heq] at hstep
    cases hstep
    refine h.advance hc hshape (h.distinct who) (h.slot who) (Or.inl ⟨Or.inl rfl, rfl⟩) ?_ ?_
    · intro r d _ hd
      exact ⟨d, by rwa [hrec], Or.inr rfl⟩
    · intro r hr
      obtain ⟨hmem, -⟩ := List.mem_filter.mp hr
      rw [hrec]
      exact h.pending who r hmem

omit [Inhabited V] [DecidableEq V] in
/-- A transaction without a number takes the next one when it deletes. -/
theorem nextId_delete {who : Bool}
    (hallowed : (s.trx who).trxId = 0 → s.counter.toNat + 1 < 2147483648) :
    s.NextId who ((s.trx who).startIfNotStarted s.counter).1.trxId
      ((s.trx who).startIfNotStarted s.counter).2 := by
  unfold Trx.startIfNotStarted
  split
  · rename_i hzero
    have hlt := hallowed hzero
    have hnext : (s.counter + 1).toNat = s.counter.toNat + 1 := by
      rw [BitVec.toNat_add, show (1 : BitVec 32).toNat = 1 from rfl]
      exact Nat.mod_eq_of_lt (by omega)
    exact Or.inr ⟨hnext, rfl, by rw [hnext]; exact hlt⟩
  · exact Or.inl ⟨Or.inl rfl, rfl⟩

theorem Inv.delete (h : s.Inv m) {who : Bool} {rid : RID} {data : RecordData V}
    (hallowed : (s.trx who).trxId = 0 → s.counter.toNat + 1 < 2147483648)
    (hstep : s.step (.delete who rid data : Action V C) = some s') : s'.Inv m := by
  simp only [step] at hstep
  split at hstep
  · rename_i hrid
    obtain ⟨t, heq, hc, hshape, hrec, -⟩ :=
      h.consistent.deleteRecord hrid s.counter (s.trx who)
    obtain ⟨hcounter, hid, hdist, hfind⟩ := (s.trx who).deleteRecord_spec s.counter rid
    have hnext := nextId_delete hallowed
    rw [← hid, ← congrArg Prod.snd hcounter] at hnext
    rw [heq] at hstep
    cases hstep
    have hkept : ∀ r d, (t.record r).isSome = true → s.table.record r = some d →
        t.record r = some d := by
      intro r d hr hd
      by_cases hrr : r = rid
      · subst hrr
        rw [hrec, Function.update_self] at hr
        cases hr
      · rwa [hrec, Function.update_of_ne hrr]
    refine h.advance hc hshape (hdist (h.distinct who)) ?_ hnext ?_ ?_
    · intro r hr
      rw [hfind] at hr
      by_cases hrr : r = rid
      · subst hrr
        obtain ⟨p, slot, rfl, -⟩ := RecordFile.record_eq_some hrid
        exact Int.natCast_nonneg slot
      · rw [if_neg hrr] at hr
        exact h.slot who r hr
    · intro r d hr hd
      exact ⟨d, hkept r d hr hd, Or.inr rfl⟩
    · intro r hr
      obtain ⟨hmem, hsome⟩ := List.mem_filter.mp hr
      obtain ⟨d, hd, htrxId⟩ := h.pending who r hmem
      refine ⟨d, hkept r d hsome hd, ?_⟩
      rw [hid]
      unfold Trx.startIfNotStarted
      split
      · rename_i hzero
        rw [hzero] at htrxId
        exact Or.inl (or_self_iff.mp htrxId)
      · exact htrxId
  · cases hstep

omit [Inhabited V] [DecidableEq V] in
/-- The end of a transaction. -/
theorem Inv.settle (h : s.Inv m) {who : Bool} {t : Table V A} (hc : t.Consistent)
    (hshape : s.table.SameShape t) (hsettles : s.table.Settles t) :
    (s.advance who t ⟨0, []⟩ s.counter (fun r => (t.record r).isSome) .none).Inv m := by
  refine h.advance hc hshape List.nodup_nil ?_ (Or.inl ⟨Or.inr rfl, rfl⟩) ?_ ?_
  · intro rid hrid
    exact absurd rfl hrid
  · intro rid data hkept hrid
    obtain ⟨data', hrid'⟩ := Option.isSome_iff_exists.mp hkept
    obtain ⟨data₀, hrid₀, hdata⟩ := hsettles rid data' hrid'
    rw [hrid] at hrid₀
    cases hrid₀
    refine ⟨data', hrid', ?_⟩
    rcases hdata with rfl | rfl
    · exact Or.inr rfl
    · exact Or.inl rfl
  · intro rid hrid
    cases hrid

omit [Inhabited V] [DecidableEq V] in
/-- The operations of a transaction are about slots. -/
theorem Inv.slots (h : s.Inv m) {who : Bool} {order : List (RID × OperationType)}
    (horder : order.Perm (s.trx who).operations) : ∀ op ∈ order, 0 ≤ op.1.slotNum := by
  intro op hop
  refine h.slot who op.1 ?_
  rw [(Trx.findOperation_eq_some (h.distinct who)).mpr (horder.mem_iff.mp hop)]
  simp

/-- One step. -/
theorem Inv.step [DecidableEq C] (h : s.Inv m) {a : Action V C} (hallowed : s.Allowed m a)
    (hstep : s.step a = some s') : s'.Inv m := by
  cases a with
  | insert who data => exact h.insert hallowed hstep
  | delete who rid data => exact h.delete hallowed hstep
  | commit who order =>
    simp only [Sessions.step] at hstep
    split at hstep
    · rename_i horder
      obtain ⟨⟨rc, t, trx⟩, hend, rfl⟩ := Option.map_eq_some_iff.mp hstep
      obtain ⟨⟨rc', t'⟩, hops, heq⟩ := Option.map_eq_some_iff.mp hend
      cases heq
      obtain ⟨hc, hshape, hsettles⟩ := Table.Consistent.endOperations (Or.inl rfl) order
        h.consistent (h.slots horder) hops
      exact h.settle hc hshape hsettles
    · cases hstep
  | rollback who order =>
    simp only [Sessions.step] at hstep
    split at hstep
    · rename_i horder
      obtain ⟨⟨rc, t, trx⟩, hend, rfl⟩ := Option.map_eq_some_iff.mp hstep
      obtain ⟨⟨rc', t'⟩, hops, heq⟩ := Option.map_eq_some_iff.mp hend
      cases heq
      obtain ⟨hc, hshape, hsettles⟩ := Table.Consistent.endOperations (Or.inr rfl) order
        h.consistent (h.slots horder) hops
      exact h.settle hc hshape hsettles
    · cases hstep
  | scan who filter limit =>
    cases hstep
    exact h

/-! ## Scans -/

omit [Inhabited V] [DecidableEq V] in
/-- A scan that meets the condition is isolated. -/
theorem Inv.isolated [DecidableEq C] (h : s.Inv m) {who : Bool}
    {filter : Option (ConditionFilter C)} {limit : Int}
    (hallowed : s.Allowed m (.scan who filter limit)) : s.Isolated m who filter limit := by
  obtain ⟨hnone, hnumber, hord⟩ := hallowed
  by_cases hlimit : limit = 0
  · subst hlimit
    exact ⟨[], rfl, by simp, fun hneg => absurd hneg (lt_irrefl _)⟩
  obtain ⟨rows, hscan, -, hmem⟩ :=
    Table.scanRecord_spec h.consistent h.describes (some (s.trx who)) filter hord hlimit
  refine ⟨rows, hscan, ?_, ?_⟩
  · rintro ⟨rid, data⟩ hrow hpending
    obtain ⟨hrid, haccepts, -⟩ := (hmem rid data).mp hrow
    obtain ⟨data', hrid', htrxId⟩ := h.pending (!who) rid hpending
    rw [hrid] at hrid'
    cases hrid'
    have hne := hnumber rid hpending data hrid
    have hown := htrxId.resolve_left hne
    have hbound := h.bound (!who)
    have hsmall := h.small
    -- the number of the other transaction, and not the reader's
    have hother : data.trx ≠ (s.trx who).trxId := by
      intro heq
      exact hne (heq.trans (h.ids who (heq.symm.trans hown)))
    have hvisible := Trx.isVisible_of_other hne (by rw [hown]; omega) hother
    simp [Table.accepts, hvisible] at haccepts
  · intro _ r hr
    rw [hnone] at hr
    cases hr

omit [Inhabited V] [DecidableEq V] in
/-- The invariant holds at the beginning. -/
theorem Inv.start {t : Table V A} (ht : t.Consistent) (hm : m.Describes t) {counter : BitVec 32}
    (hcounter : counter.toNat + 2 < 2147483648) : (start t counter).Inv m := by
  have h₁ : (counter + 1).toNat = counter.toNat + 1 := by
    rw [BitVec.toNat_add, show (1 : BitVec 32).toNat = 1 from rfl]
    exact Nat.mod_eq_of_lt (by omega)
  have h₂ : (counter + 1 + 1).toNat = counter.toNat + 2 := by
    rw [BitVec.toNat_add, h₁, show (1 : BitVec 32).toNat = 1 from rfl]
    exact Nat.mod_eq_of_lt (by omega)
  have hne : counter + 1 + 1 ≠ counter + 1 := by
    intro heq
    have := congrArg BitVec.toNat heq
    omega
  refine ⟨ht, hm, ?_, ?_, ?_, ?_, ?_, ?_⟩
  · intro who
    cases who <;> exact List.nodup_nil
  · intro who rid hrid
    cases who <;> exact absurd rfl hrid
  · intro who
    show _ ≤ (counter + 1 + 1).toNat
    cases who
    · show (counter + 1).toNat ≤ _
      omega
    · exact le_rfl
  · show (counter + 1 + 1).toNat < _
    omega
  · intro who heq
    cases who
    · exact absurd heq.symm hne
    · exact absurd heq hne
  · intro who rid hrid
    cases hrid

end Sessions

open Sessions

/-- In every run of two transaction objects on a table, in which all steps meet the condition, every
scan is isolated from what the other object has not committed. -/
theorem scan_isolated [Inhabited V] [DecidableEq V] [DecidableEq C] (t : Table V A)
    (m : TableMeta V A C) (ht : t.Consistent) (hm : m.Describes t) (counter : BitVec 32)
    (hcounter : counter.toNat + 2 < 2147483648) (actions : List (Action V C)) (who : Bool)
    (filter : Option (ConditionFilter C)) (limit : Int) (s : Sessions V A)
    (hrun : run actions (start t counter) = some s)
    (hall : AllSteps Sessions.step (fun s => s.Allowed m) (actions ++ [.scan who filter limit])
      (start t counter)) :
    s.Isolated m who filter limit := by
  obtain ⟨hall, hscan⟩ := hall.last hrun
  have hinv : s.Inv m := hall.invariant (fun s => s.Inv m) hrun
    (fun _ _ _ h hallowed hstep => h.step hallowed hstep) (.start ht hm hcounter)
  exact hinv.isolated hscan

/-- The first transaction of an object inserts a row, and the other object does not see it. -/
theorem scan_isolated_first : ∃ s : Sessions ℕ ℤ,
    run ([.insert false ⟨0, 7⟩] : List (Action ℕ Unit)) (start sampleTable 0) = some s ∧
      s.Isolated sampleMeta true none (-1) := by
  have hrun : (run ([.insert false ⟨0, 7⟩] : List (Action ℕ Unit))
      (start sampleTable 0)).isSome := by decide
  have hpending : ((start sampleTable 0).step (.insert false ⟨0, 7⟩ : Action ℕ Unit)).map
      (fun s => ((s.pending false).deleted, (s.pending false).inserted,
        s.table.record (slotRid 1 0))) = some ([], [slotRid 1 0], some ⟨1, 7⟩) := by decide
  obtain ⟨s, hs⟩ := Option.isSome_iff_exists.mp hrun
  refine ⟨s, hs, scan_isolated sampleTable sampleMeta sampleTable_consistent rfl 0 (by decide)
    _ true none (-1) s hs ⟨?_, ?_⟩⟩
  · exact ⟨Table.keepsRecords_of_reusedPage (by decide), by decide⟩
  · intro s' hstep
    rw [hstep, Option.map_some, Option.some_inj, Prod.mk.injEq, Prod.mk.injEq] at hpending
    obtain ⟨hdeleted, hinserted, hrecord⟩ := hpending
    refine ⟨⟨hdeleted, ?_, fun _ _ hfirst => by cases hfirst⟩, fun _ _ => trivial⟩
    intro rid hrid data hdata
    rw [Bool.not_true, hinserted, List.mem_singleton] at hrid
    subst hrid
    rw [hrecord] at hdata
    cases hdata
    decide

/-- The second transaction of an object inserts a row, and the other object sees it. -/
theorem scan_not_isolated : ∃ s : Sessions ℕ ℤ,
    run ([.commit false [], .insert false ⟨0, 7⟩] : List (Action ℕ Unit))
      (start sampleTable 0) = some s ∧ ¬ s.Isolated sampleMeta true none (-1) := by
  have hinserted : (run ([.commit false [], .insert false ⟨0, 7⟩] : List (Action ℕ Unit))
      (start sampleTable 0)).map (fun s => (s.pending false).inserted) =
      some [slotRid 1 0] := by decide
  have hrows : (run ([.commit false [], .insert false ⟨0, 7⟩] : List (Action ℕ Unit))
      (start sampleTable 0)).map
        (fun s => s.table.scanRecord sampleMeta (some (s.trx true)) none (-1)) =
      some (some (.success, [(slotRid 1 0, ⟨0, 7⟩)])) := by decide
  obtain ⟨s, hs, hpending⟩ := Option.map_eq_some_iff.mp hinserted
  rw [hs, Option.map_some, Option.some_inj] at hrows
  refine ⟨s, hs, ?_⟩
  rintro ⟨rows, hscan, hhidden, -⟩
  rw [hrows] at hscan
  cases hscan
  refine hhidden _ List.mem_cons_self ?_
  rw [Bool.not_true, hpending]
  exact List.mem_cons_self

end Miniob.Storage.Common
