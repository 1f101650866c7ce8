import Miniob.Sql.Operator.PhysicalOperator

/-!
# What physical operators hand up

* `Emits`: from a state on, an operator hands up these tuples, and it can be closed at any time.
* `Scans`: whenever it is opened, it hands up these tuples.
* `tableScan_scans`, `predicateOper_scans`, `nestedLoopJoin_scans`, `project_scans`: what the
  operators hand up, from what their children do.
* `createPlan_scans`: the operators of a plan hand up the rows of the plan.
* `writeResult_eq`: the rows that get to the client.
-/

namespace Miniob.Sql


namespace PhysicalOperator

variable (oper : PhysicalOperator)

/-- The call ends, with enough fuel. -/
def Returns (s : oper.State) (rc : RC) (s' : oper.State) : Prop :=
  ∃ n, ∀ fuel ≥ n, oper.next fuel s = some (rc, s')

/-- Closing leads to a state in which the operator can be opened. -/
def Closes (idle : oper.State → Prop) (s : oper.State) : Prop :=
  ∃ s', oper.close s = (.success, s') ∧ idle s'

/-- The operator hands up these tuples, and then no more. -/
inductive Emits (idle : oper.State → Prop) : oper.State → List Tuple → Prop
  | eof {s s' : oper.State} (h : oper.Returns s .recordEof s') (hclose : oper.Closes idle s') :
      Emits idle s []
  | row {s s' : oper.State} {tuple : Tuple} {tuples : List Tuple}
      (h : oper.Returns s .success s') (htuple : oper.currentTuple s' = some tuple)
      (hclose : oper.Closes idle s') (hrest : Emits idle s' tuples) : Emits idle s (tuple :: tuples)

/-- Opening leads to a state from which the operator hands up these tuples. -/
def Opens (idle : oper.State → Prop) (tuples : List Tuple) (s : oper.State) : Prop :=
  ∃ s', oper.openOper s = (.success, s') ∧ oper.Emits idle s' tuples

/-- Whenever the operator is opened, it hands up these tuples. -/
def Scans (tuples : List Tuple) : Prop :=
  ∃ idle : oper.State → Prop, idle oper.init ∧ ∀ s, idle s → oper.Opens idle tuples s

variable {oper}

/-- Only the calls of `next` count. -/
theorem Emits.congr {idle : oper.State → Prop} {s s' : oper.State} {tuples : List Tuple}
    (h : oper.Emits idle s tuples)
    (hnext : ∀ rc s'', oper.Returns s rc s'' → oper.Returns s' rc s'') :
    oper.Emits idle s' tuples := by
  cases h with
  | eof h hclose => exact .eof (hnext _ _ h) hclose
  | row h htuple hclose hrest => exact .row (hnext _ _ h) htuple hclose hrest

end PhysicalOperator

open PhysicalOperator

/-! ## Reading a table -/

theorem filterRows_cons {filter : Tuple → Except RC Bool} {tuple : Tuple} {tuples kept : List Tuple}
    (h : filterRows filter (tuple :: tuples) = .ok kept) :
    ∃ b rest, filter tuple = .ok b ∧ filterRows filter tuples = .ok rest ∧
      kept = if b then tuple :: rest else rest := by
  rw [filterRows] at h
  cases hfilter : filter tuple with
  | error rc =>
    rw [hfilter] at h
    cases h
  | ok b =>
    rw [hfilter] at h
    cases hrest : filterRows filter tuples with
    | error rc =>
      rw [hrest] at h
      cases h
    | ok rest =>
      rw [hrest] at h
      exact ⟨b, rest, rfl, rfl, (Except.ok.inj h).symm⟩

/-- A call goes on to the next record that the conditions hold of. By induction on the records. -/
theorem scanNext_spec {table : TableSchema} {predicates : List Expression} (records : List Record) :
    ∀ {current : Option Record} {kept : List Tuple},
      filterRows (filterScan · predicates) (records.map (.row table)) = .ok kept →
      kept = [] ∧ (∃ current', scanNext table predicates records current =
          (.recordEof, ⟨[], current'⟩)) ∨
        ∃ record rest kept', kept = .row table record :: kept' ∧
          scanNext table predicates records current = (.success, ⟨rest, some record⟩) ∧
          filterRows (filterScan · predicates) (rest.map (.row table)) = .ok kept' := by
  induction records with
  | nil =>
    intro current kept h
    cases h
    exact Or.inl ⟨rfl, current, rfl⟩
  | cons record records ih =>
    intro current kept h
    obtain ⟨b, rest, hfilter, hrest, rfl⟩ := filterRows_cons h
    rw [scanNext, hfilter]
    cases b with
    | true => exact Or.inr ⟨record, records, rest, rfl, rfl, hrest⟩
    | false => exact ih hrest

theorem tableScan_scans {contents : Contents} {table : TableSchema} {predicates : List Expression}
    {kept : List Tuple}
    (h : filterRows (filterScan · predicates) ((contents table.name).map (.row table)) = .ok kept) :
    (tableScan contents table predicates).Scans kept := by
  have hemits : ∀ (kept : List Tuple) (s : TableScanState),
      filterRows (filterScan · predicates) (s.recordScanner.map (.row table)) = .ok kept →
      (tableScan contents table predicates).Emits (fun _ => True) s kept := by
    intro kept
    induction kept with
    | nil =>
      intro s hs
      rcases scanNext_spec s.recordScanner hs with ⟨-, current, hnext⟩ | ⟨_, _, _, hkept, -, -⟩
      · exact .eof ⟨0, fun _ _ => congrArg some hnext⟩ ⟨_, rfl, trivial⟩
      · cases hkept
    | cons tuple kept ih =>
      intro s hs
      rcases scanNext_spec s.recordScanner hs with
        ⟨hkept, -⟩ | ⟨record, rest, kept', hkept, hnext, hrest⟩
      · cases hkept
      · cases hkept
        exact .row ⟨0, fun _ _ => congrArg some hnext⟩ rfl ⟨_, rfl, trivial⟩ (ih _ hrest)
  exact ⟨fun _ => True, trivial, fun s _ => ⟨_, rfl, hemits kept _ h⟩⟩

/-! ## Filtering -/

section predicate

variable {child : PhysicalOperator} {e : Expression} {idle : child.State → Prop}

/-- The loop ends, with enough fuel for itself and for the child. -/
def LoopReturns (child : PhysicalOperator) (e : Expression) (s : child.State) (rc : RC)
    (s' : child.State) : Prop :=
  ∃ n, ∀ fuel ≥ n, ∀ k ≥ n, predicateNext child e fuel k s = some (rc, s')

theorem LoopReturns.returns {s s' : child.State} {rc : RC} (h : LoopReturns child e s rc s') :
    (predicateOper e child).Returns s rc s' := by
  obtain ⟨n, hn⟩ := h
  exact ⟨n, fun fuel hfuel => hn fuel hfuel fuel hfuel⟩

theorem predicateNext_eof {s s' : child.State} (h : child.Returns s .recordEof s') :
    LoopReturns child e s .recordEof s' := by
  obtain ⟨n, hn⟩ := h
  refine ⟨n + 1, fun fuel hfuel k hk => ?_⟩
  obtain ⟨k, rfl⟩ := Nat.exists_eq_add_of_le' (Nat.le_trans (Nat.le_add_left 1 n) hk)
  rw [predicateNext, hn fuel (by omega)]
  rfl

theorem holds_inv {tuple : Tuple} {b : Bool} (h : e.holds tuple = .ok b) :
    ∃ cell, e.getValue tuple = .ok cell ∧ cell.getBoolean = b := by
  unfold Expression.holds at h
  cases hcell : e.getValue tuple with
  | error rc =>
    rw [hcell] at h
    cases h
  | ok cell =>
    rw [hcell] at h
    exact ⟨cell, rfl, Except.ok.inj h⟩

/-- A tuple that the condition holds of is handed up. -/
theorem predicateNext_accept {s s' : child.State} {tuple : Tuple} (h : child.Returns s .success s')
    (htuple : child.currentTuple s' = some tuple) (hholds : e.holds tuple = .ok true) :
    LoopReturns child e s .success s' := by
  obtain ⟨n, hn⟩ := h
  obtain ⟨cell, hcell, htrue⟩ := holds_inv hholds
  refine ⟨n + 1, fun fuel hfuel k hk => ?_⟩
  obtain ⟨k, rfl⟩ := Nat.exists_eq_add_of_le' (Nat.le_trans (Nat.le_add_left 1 n) hk)
  rw [predicateNext, hn fuel (by omega)]
  simp [htuple, hcell, htrue]

/-- A tuple that the condition does not hold of is passed over. -/
theorem predicateNext_skip {s s' s'' : child.State} {tuple : Tuple} {rc : RC}
    (h : child.Returns s .success s') (htuple : child.currentTuple s' = some tuple)
    (hholds : e.holds tuple = .ok false) (hrest : LoopReturns child e s' rc s'') :
    LoopReturns child e s rc s'' := by
  obtain ⟨n, hn⟩ := h
  obtain ⟨m, hm⟩ := hrest
  obtain ⟨cell, hcell, hfalse⟩ := holds_inv hholds
  refine ⟨n + m + 1, fun fuel hfuel k hk => ?_⟩
  obtain ⟨k, rfl⟩ := Nat.exists_eq_add_of_le' (Nat.le_trans (Nat.le_add_left 1 (n + m)) hk)
  rw [predicateNext, hn fuel (by omega)]
  simp [htuple, hcell, hfalse, hm fuel (by omega) k (by omega)]

/-- A call goes on to the next tuple of the child that the condition holds of. By induction on what
the child hands up. -/
theorem predicateNext_spec {s : child.State} {tuples : List Tuple} (h : child.Emits idle s tuples) :
    ∀ {kept : List Tuple}, filterRows e.holds tuples = .ok kept →
      kept = [] ∧ (∃ s', LoopReturns child e s .recordEof s' ∧ child.Closes idle s') ∨
        ∃ tuple rest kept' s', kept = tuple :: kept' ∧ LoopReturns child e s .success s' ∧
          child.currentTuple s' = some tuple ∧ child.Closes idle s' ∧ child.Emits idle s' rest ∧
          filterRows e.holds rest = .ok kept' := by
  induction h with
  | eof h hclose =>
    intro kept hkept
    cases hkept
    exact Or.inl ⟨rfl, _, predicateNext_eof h, hclose⟩
  | @row s s' tuple tuples h htuple hclose hemits ih =>
    intro kept hkept
    obtain ⟨b, rest, hholds, hrest, rfl⟩ := filterRows_cons hkept
    cases b with
    | true =>
      exact Or.inr ⟨tuple, tuples, rest, s', rfl, predicateNext_accept h htuple hholds, htuple,
        hclose, hemits, hrest⟩
    | false =>
      rcases ih hrest with ⟨hnil, s'', hloop, hclose'⟩ |
        ⟨tuple', rest', kept', s'', hcons, hloop, hothers⟩
      · exact Or.inl ⟨hnil, s'', predicateNext_skip h htuple hholds hloop, hclose'⟩
      · exact Or.inr ⟨tuple', rest', kept', s'', hcons, predicateNext_skip h htuple hholds hloop,
          hothers⟩

theorem predicateOper_closes {s : child.State} (h : child.Closes idle s) :
    (predicateOper e child).Closes idle s := by
  obtain ⟨s', hclose, hidle⟩ := h
  refine ⟨s', ?_, hidle⟩
  show (RC.success, (child.close s).2) = _
  rw [hclose]
  rfl

theorem predicateOper_emits {kept : List Tuple} :
    ∀ {s : child.State} {tuples : List Tuple}, child.Emits idle s tuples →
      filterRows e.holds tuples = .ok kept → (predicateOper e child).Emits idle s kept := by
  induction kept with
  | nil =>
    intro s tuples h hkept
    rcases predicateNext_spec h hkept with ⟨-, s', hloop, hclose⟩ | ⟨_, _, _, _, hcons, -⟩
    · exact .eof hloop.returns (predicateOper_closes hclose)
    · cases hcons
  | cons tuple kept ih =>
    intro s tuples h hkept
    rcases predicateNext_spec h hkept with
      ⟨hnil, -⟩ | ⟨tuple', rest, kept', s', hcons, hloop, htuple, hclose, hemits, hrest⟩
    · cases hnil
    · cases hcons
      exact .row hloop.returns htuple (predicateOper_closes hclose) (ih hemits hrest)

theorem predicateOper_scans {tuples kept : List Tuple} (h : child.Scans tuples)
    (hkept : filterRows e.holds tuples = .ok kept) : (predicateOper e child).Scans kept := by
  obtain ⟨idle, hinit, hopens⟩ := h
  refine ⟨idle, hinit, fun s hs => ?_⟩
  obtain ⟨s', hopen, hemits⟩ := hopens s hs
  exact ⟨s', hopen, predicateOper_emits hemits hkept⟩

end predicate

/-! ## Joining -/

section join

variable {left right : PhysicalOperator} {idleL : left.State → Prop} {idleR : right.State → Prop}

/-- Both sides can be opened. -/
def JoinIdle (idleL : left.State → Prop) (idleR : right.State → Prop)
    (s : JoinState left.State right.State) : Prop :=
  s.rightClosed = true ∧ idleL s.left ∧ idleR s.right

/-- The right side can be opened, once it is closed if it is open. -/
def RightReady (idleR : right.State → Prop) (s : JoinState left.State right.State) : Prop :=
  if s.rightClosed then idleR s.right else right.Closes idleR s.right

theorem nestedLoopJoin_closes {s : JoinState left.State right.State}
    (hleft : left.Closes idleL s.left) (hright : RightReady idleR s) :
    (nestedLoopJoin left right).Closes (JoinIdle idleL idleR) s := by
  obtain ⟨l, hclose, hidle⟩ := hleft
  unfold PhysicalOperator.Closes nestedLoopJoin joinClose
  unfold RightReady at hright
  cases hclosed : s.rightClosed with
  | true =>
    rw [hclosed, if_pos rfl] at hright
    exact ⟨{ s with left := l }, by simp [hclose, hclosed], hclosed, hidle, hright⟩
  | false =>
    rw [hclosed, if_neg (by simp)] at hright
    obtain ⟨r, hcloseR, hidleR⟩ := hright
    exact ⟨{ s with left := l, right := r, rightClosed := true },
      by simp [hclose, hclosed, hcloseR], rfl, hidle, hidleR⟩

/-- A round begins with the right side opened anew. -/
theorem beginRound_eq {s : JoinState left.State right.State} {rights : List Tuple}
    (hright : RightReady idleR s) (hopens : ∀ r, idleR r → right.Opens idleR rights r) :
    ∃ r, beginRound left right s =
        (.success, { s with right := r, rightClosed := false, roundDone := false }) ∧
      right.Emits idleR r rights := by
  unfold beginRound closeRight
  unfold RightReady at hright
  cases hclosed : s.rightClosed with
  | true =>
    rw [hclosed, if_pos rfl] at hright
    obtain ⟨r, hopen, hemits⟩ := hopens _ hright
    exact ⟨r, by simp [hopen], hemits⟩
  | false =>
    rw [hclosed, if_neg (by simp)] at hright
    obtain ⟨r, hcloseR, hidleR⟩ := hright
    obtain ⟨r', hopen, hemits⟩ := hopens r hidleR
    exact ⟨r', by simp [hcloseR, hopen], hemits⟩

/-- The states in which the next tuple of the left side is needed. -/
structure Between (idleL : left.State → Prop) (idleR : right.State → Prop) (lefts : List Tuple)
    (s : JoinState left.State right.State) : Prop where
  roundDone : s.roundDone = true
  emits : left.Emits idleL s.left lefts
  ready : RightReady idleR s

/-- The states in a round over the right side. -/
structure InRound (idleL : left.State → Prop) (idleR : right.State → Prop) (tuple : Tuple)
    (lefts rights : List Tuple) (s : JoinState left.State right.State) : Prop where
  roundDone : s.roundDone = false
  rightClosed : s.rightClosed = false
  hasLeft : s.hasLeft = true
  current : left.currentTuple s.left = some tuple
  closes : left.Closes idleL s.left
  emitsLeft : left.Emits idleL s.left lefts
  emitsRight : right.Emits idleR s.right rights

/-! One call of `next`, by what the calls on the two sides return. -/

section step

variable {fuel : ℕ} {s s' : JoinState left.State right.State} {l : left.State} {r : right.State}

theorem joinNext_leftEof (hdone : s.roundDone = true)
    (hl : left.next fuel s.left = some (.recordEof, l)) :
    joinNext left right fuel s = some (.recordEof, { s with left := l }) := by
  simp [joinNext, stepLeft, leftNext, hdone, hl]

theorem joinNext_begin_eof (hdone : s.roundDone = true)
    (hl : left.next fuel s.left = some (.success, l))
    (hbegin : beginRound left right { s with left := l, hasLeft := true } = (.success, s'))
    (hr : right.next fuel s'.right = some (.recordEof, r)) :
    joinNext left right fuel s = some (.recordEof, { s' with right := r, roundDone := true }) := by
  rw [joinNext, if_pos hdone, stepLeft, leftNext, hl]
  simp only [hdone] at hbegin
  simp [rightNext, hdone, hbegin, hr]

theorem joinNext_begin (hdone : s.roundDone = true)
    (hl : left.next fuel s.left = some (.success, l))
    (hbegin : beginRound left right { s with left := l, hasLeft := true } = (.success, s'))
    (hr : right.next fuel s'.right = some (.success, r)) :
    joinNext left right fuel s = some (.success, { s' with right := r, hasRight := true }) := by
  rw [joinNext, if_pos hdone, stepLeft, leftNext, hl]
  simp only [hdone] at hbegin
  simp [rightNext, hdone, hbegin, hr]

theorem joinNext_rightEof (hround : s.roundDone = false)
    (hr : right.next fuel s.right = some (.recordEof, r)) :
    joinNext left right fuel s =
      joinNext left right fuel { s with right := r, roundDone := true } := by
  simp [joinNext, rightNext, hround, hr]

theorem joinNext_right (hround : s.roundDone = false)
    (hr : right.next fuel s.right = some (.success, r)) :
    joinNext left right fuel s = some (.success, { s with right := r, hasRight := true }) := by
  simp [joinNext, rightNext, hround, hr]

/-- The tuple of a join, once there is one on each side. -/
theorem current_joined {tuple t : Tuple} (hleft : s.hasLeft = true) (hright : s.hasRight = true)
    (hl : left.currentTuple s.left = some tuple) (hr : right.currentTuple s.right = some t) :
    (nestedLoopJoin left right).currentTuple s = some (.joined tuple t) := by
  simp [nestedLoopJoin, hleft, hright, hl, hr]

end step

/-- The operator hands up the rest of a round, and then what it hands up when the round is done. By
induction on what the right side hands up. -/
theorem emits_inRound {tuple : Tuple} {lefts rest : List Tuple}
    (hbetween : ∀ s, Between idleL idleR lefts s →
      (nestedLoopJoin left right).Emits (JoinIdle idleL idleR) s rest) (rights : List Tuple) :
    ∀ s, InRound idleL idleR tuple lefts rights s →
      (nestedLoopJoin left right).Emits (JoinIdle idleL idleR) s
        (rights.map (Tuple.joined tuple) ++ rest) := by
  induction rights with
  | nil =>
    intro s hs
    cases hs.emitsRight with
    | @eof _ r hnext hclose =>
      -- the call goes on as one between two rounds does
      have hdone : Between idleL idleR lefts { s with right := r, roundDone := true } :=
        ⟨rfl, hs.emitsLeft, by
          simp only [RightReady, hs.rightClosed]
          exact hclose⟩
      refine (hbetween _ hdone).congr fun rc s'' hreturns => ?_
      obtain ⟨n, hn⟩ := hnext
      obtain ⟨m, hm⟩ := hreturns
      exact ⟨n + m, fun fuel hfuel =>
        (joinNext_rightEof hs.roundDone (hn fuel (by omega))).trans (hm fuel (by omega))⟩
  | cons t rights ih =>
    intro s hs
    cases hs.emitsRight with
    | @row _ r _ _ hnext htuple hclose hemits =>
      have hround :
          InRound idleL idleR tuple lefts rights { s with right := r, hasRight := true } :=
        ⟨hs.roundDone, hs.rightClosed, hs.hasLeft, hs.current, hs.closes, hs.emitsLeft, hemits⟩
      have hready : RightReady idleR { s with right := r, hasRight := true } := by
        simp only [RightReady, hs.rightClosed]
        exact hclose
      have hcloses := nestedLoopJoin_closes (s := { s with right := r, hasRight := true }) hs.closes
        hready
      refine .row ?_ ?_ hcloses (ih _ hround)
      · obtain ⟨n, hn⟩ := hnext
        exact ⟨n, fun fuel hfuel => joinNext_right hs.roundDone (hn fuel hfuel)⟩
      · exact current_joined hs.hasLeft rfl hs.current htuple

/-- Between two rounds the operator hands up the rows of the tuples to come, each joined to the
whole right side. By induction on what the left side hands up; an empty right side ends the first
round at once. -/
theorem emits_between {rights lefts : List Tuple}
    (hopens : lefts ≠ [] → ∀ r, idleR r → right.Opens idleR rights r) :
    ∀ s, Between idleL idleR lefts s →
      (nestedLoopJoin left right).Emits (JoinIdle idleL idleR) s
        (lefts.flatMap fun l => rights.map (Tuple.joined l)) := by
  induction lefts with
  | nil =>
    intro s hs
    cases hs.emits with
    | @eof _ l hnext hclose =>
      refine .eof ?_ (nestedLoopJoin_closes (s := { s with left := l }) hclose hs.ready)
      obtain ⟨n, hn⟩ := hnext
      exact ⟨n, fun fuel hfuel => joinNext_leftEof hs.roundDone (hn fuel hfuel)⟩
  | cons tuple lefts ih =>
    intro s hs
    have hopens' := hopens (List.cons_ne_nil _ _)
    cases hs.emits with
    | @row _ l _ _ hnext htuple hclose hemits =>
      obtain ⟨r, hbegin, hright⟩ := beginRound_eq (s := { s with left := l, hasLeft := true })
        hs.ready hopens'
      obtain ⟨n, hn⟩ := hnext
      cases hright with
      | @eof _ r' hnextR hcloseR =>
        have hempty : ((tuple :: lefts).flatMap fun l => ([] : List Tuple).map (Tuple.joined l)) =
            [] := by simp
        rw [hempty]
        obtain ⟨m, hm⟩ := hnextR
        have hcloses := nestedLoopJoin_closes (s := ⟨l, r', true, s.hasRight, true, false⟩) hclose
          hcloseR
        refine .eof ⟨n + m, fun fuel hfuel => ?_⟩ hcloses
        exact joinNext_begin_eof hs.roundDone (hn fuel (by omega)) hbegin (hm fuel (by omega))
      | @row _ r' t rights hnextR htupleR hcloseR hrest =>
        rw [List.flatMap_cons, List.map_cons, List.cons_append]
        obtain ⟨m, hm⟩ := hnextR
        have hcloses := nestedLoopJoin_closes (s := ⟨l, r', true, true, false, false⟩) hclose
          hcloseR
        refine .row ⟨n + m, fun fuel hfuel => ?_⟩ ?_ hcloses ?_
        · exact joinNext_begin hs.roundDone (hn fuel (by omega)) hbegin (hm fuel (by omega))
        · exact current_joined rfl rfl htuple htupleR
        · exact emits_inRound (ih fun _ => hopens') rights _
            ⟨rfl, rfl, rfl, htuple, hclose, hemits, hrest⟩

/-- The right side is opened only if the left side hands up a tuple. -/
theorem nestedLoopJoin_scans {lefts rights : List Tuple} (hleft : left.Scans lefts)
    (hright : lefts ≠ [] → right.Scans rights) :
    (nestedLoopJoin left right).Scans (lefts.flatMap fun l => rights.map (Tuple.joined l)) := by
  obtain ⟨idleL, hinitL, hopensL⟩ := hleft
  have hidle : ∃ idleR : right.State → Prop, idleR right.init ∧
      (lefts ≠ [] → ∀ r, idleR r → right.Opens idleR rights r) := by
    by_cases hnil : lefts = []
    · exact ⟨fun _ => True, trivial, fun h => absurd hnil h⟩
    · obtain ⟨idleR, hinit, hopens⟩ := hright hnil
      exact ⟨idleR, hinit, fun _ => hopens⟩
  obtain ⟨idleR, hinitR, hopensR⟩ := hidle
  refine ⟨JoinIdle idleL idleR, ⟨rfl, hinitL, hinitR⟩, fun s hs => ?_⟩
  obtain ⟨l, hopen, hemits⟩ := hopensL s.left hs.2.1
  refine ⟨{ s with left := l, rightClosed := true, roundDone := true }, ?_,
    emits_between hopensR _ ⟨rfl, hemits, hs.2.2⟩⟩
  show ((left.openOper s.left).1, JoinState.mk (left.openOper s.left).2 _ _ _ _ _) = _
  rw [hopen]
  rfl

end join

/-! ## Projecting -/

theorem project_emits {speces : List Field} {child : PhysicalOperator} {idle : child.State → Prop}
    {s : child.State} {tuples : List Tuple} (h : child.Emits idle s tuples) :
    (project speces child).Emits idle s (tuples.map (Tuple.project speces)) := by
  have hcloses : ∀ {s : child.State}, child.Closes idle s →
      (project speces child).Closes idle s := by
    rintro s ⟨s', hclose, hidle⟩
    refine ⟨s', ?_, hidle⟩
    show (RC.success, (child.close s).2) = _
    rw [hclose]
    rfl
  induction h with
  | eof h hclose => exact .eof h (hcloses hclose)
  | row h htuple hclose _ ih => exact .row h (by simp [project, htuple]) (hcloses hclose) ih

theorem project_scans {speces : List Field} {child : PhysicalOperator} {tuples : List Tuple}
    (h : child.Scans tuples) :
    (project speces child).Scans (tuples.map (Tuple.project speces)) := by
  obtain ⟨idle, hinit, hopens⟩ := h
  refine ⟨idle, hinit, fun s hs => ?_⟩
  obtain ⟨s', hopen, hemits⟩ := hopens s hs
  exact ⟨s', hopen, project_emits hemits⟩

theorem projectNothing_scans : projectNothing.Scans [] :=
  ⟨fun _ => True, trivial, fun _ _ => ⟨_, rfl, .eof ⟨0, fun _ _ => rfl⟩ ⟨_, rfl, trivial⟩⟩⟩

/-! ## Plans -/

/-- The right side of a join has rows, unless the left side has none. -/
theorem joinRows_inv {right : Except RC (List Tuple)} {lefts tuples : List Tuple}
    (h : joinRows right lefts = .ok tuples) :
    ∃ rights, (lefts ≠ [] → right = .ok rights) ∧
      tuples = lefts.flatMap fun left => rights.map (Tuple.joined left) := by
  cases hlefts : lefts with
  | nil =>
    rw [hlefts] at h
    cases h
    exact ⟨[], fun hne => absurd rfl hne, rfl⟩
  | cons left rest =>
    rw [hlefts] at h
    obtain ⟨rights, hright, -⟩ := bind_inv h
    rw [joinRows_eq hright] at h
    exact ⟨rights, fun _ => hright, (Except.ok.inj h).symm⟩

/-- The operators of a plan hand up the rows of the plan. By induction on the plan. -/
theorem createPlan_scans {contents : Contents} {plan : LogicalOperator} {oper : PhysicalOperator}
    {tuples : List Tuple} (hplan : createPlan contents plan = some oper)
    (hrows : plan.rows contents = .ok tuples) : oper.Scans tuples := by
  induction plan using createPlan.induct generalizing oper tuples with
  | case1 table predicates expressions children =>
    cases hplan
    exact tableScan_scans hrows
  | case2 e child ih =>
    obtain ⟨childOper, hchild, rfl⟩ := Option.map_eq_some_iff.mp hplan
    obtain ⟨childTuples, hchildRows, hkept⟩ := bind_inv hrows
    exact predicateOper_scans (ih hchild hchildRows) hkept
  | case3 fields expressions =>
    cases hplan
    cases hrows
    exact projectNothing_scans
  | case4 fields expressions child children ih =>
    obtain ⟨childOper, hchild, rfl⟩ := Option.map_eq_some_iff.mp hplan
    obtain ⟨childTuples, hchildRows, hmap⟩ := bind_inv hrows
    cases hmap
    exact project_scans (ih hchild hchildRows)
  | case5 expressions left right ihl ihr =>
    obtain ⟨leftOper, hleft, hbind⟩ := Option.bind_eq_some_iff.mp hplan
    obtain ⟨rightOper, hright, rfl⟩ := Option.map_eq_some_iff.mp hbind
    obtain ⟨lefts, hleftRows, hjoin⟩ := bind_inv hrows
    obtain ⟨rights, hrightRows, rfl⟩ := joinRows_inv hjoin
    exact nestedLoopJoin_scans (ihl hleft hleftRows) fun hne => ihr hright (hrightRows hne)
  | case6 plan h1 h2 h3 h4 h5 =>
    rw [createPlan.eq_6 _ _ h1 h2 h3 h4 h5] at hplan
    cases hplan

/-! ## Rows for the client -/

/-- The rows that are written, from the tuples that are handed up. By induction on these. -/
theorem writeRows_eq {oper : PhysicalOperator} {idle : oper.State → Prop} {s : oper.State}
    {tuples : List Tuple} (h : oper.Emits idle s tuples) :
    ∀ {rows : List (List TupleCell)},
      List.Forall₂ (fun tuple cells => tuple.shownCells = some (.ok cells)) tuples rows →
      ∃ n, ∀ fuel ≥ n, ∀ k ≥ n, writeRows oper fuel k s = some (.success, rows) := by
  induction h with
  | eof h _ =>
    intro rows hrows
    cases hrows
    obtain ⟨n, hn⟩ := h
    refine ⟨n + 1, fun fuel hfuel k hk => ?_⟩
    obtain ⟨k, rfl⟩ := Nat.exists_eq_add_of_le' (Nat.le_trans (Nat.le_add_left 1 n) hk)
    rw [writeRows, hn fuel (by omega)]
    rfl
  | row h htuple _ _ ih =>
    intro rows hrows
    cases hrows with
    | cons hcells hrest =>
      obtain ⟨n, hn⟩ := h
      obtain ⟨m, hm⟩ := ih hrest
      refine ⟨n + m + 1, fun fuel hfuel k hk => ?_⟩
      obtain ⟨k, rfl⟩ := Nat.exists_eq_add_of_le' (Nat.le_trans (Nat.le_add_left 1 (n + m)) hk)
      rw [writeRows, hn fuel (by omega)]
      simp [htuple, hcells, hm fuel (by omega) k (by omega)]

/-- With enough fuel, the client gets the cells of all tuples that the operator hands up. -/
theorem writeResult_eq {oper : PhysicalOperator} {tuples : List Tuple} (h : oper.Scans tuples)
    {rows : List (List TupleCell)}
    (hrows : List.Forall₂ (fun tuple cells => tuple.shownCells = some (.ok cells)) tuples rows) :
    ∃ n, ∀ fuel ≥ n, writeResult fuel oper = some (.success, rows) := by
  obtain ⟨idle, hinit, hopens⟩ := h
  obtain ⟨s, hopen, hemits⟩ := hopens _ hinit
  obtain ⟨n, hn⟩ := writeRows_eq hemits hrows
  refine ⟨n, fun fuel hfuel => ?_⟩
  rw [writeResult, hopen]
  exact hn fuel hfuel fuel hfuel

end Miniob.Sql
