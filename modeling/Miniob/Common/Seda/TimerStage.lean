import Mathlib.Data.Prod.Lex
import Miniob.Lib.OrderedMap
import Miniob.Lib.Threads

/-!
# Timers

Threads register and cancel timers while the thread of the stage fires those that are due. The
queue is ordered by the tokens, which are ordered by the time and, at one time, by a number.

* `TimerToken`: the tokens. `less_iff` says that `operator<` is their order.
* `registerTimer`, `cancelTimer`, `checkTimer`: the sections under `timer_mutex_`.
* `TimerStep`: a section, or the start of a registration, which draws a number under a mutex of its
  own. Registrations that overlap have the order of their numbers.
* `timers_fire_once`: the result for every run, whatever the clock shows.

The 64 bits of a number are not used up, so a number is any number.

Source: `deps/common/seda/timer_stage.cpp`, `timer_stage.h`.
-/

namespace Miniob.Common.Seda

open Miniob.Lib

/-! ## Tokens -/

/-- Source: `struct timeval` -/
structure Timeval where
  tvSec : Int
  tvUsec : Int
  deriving DecidableEq

namespace Timeval

variable (t1 t2 : Timeval)

/-- Source: `timer_stage.cpp`, `TIMEVAL_EQUAL` -/
def equal : Bool := t1.tvSec = t2.tvSec && t1.tvUsec = t2.tvUsec

/-- Source: `timer_stage.cpp`, `TIMEVAL_LESS_THAN` -/
def lessThan : Bool :=
  t1.tvSec < t2.tvSec || (t1.tvSec = t2.tvSec && t1.tvUsec < t2.tvUsec)

/-- A time as a pair, for the order. -/
def toPair : Int ×ₗ Int := toLex (t1.tvSec, t1.tvUsec)

theorem toPair_injective : Function.Injective toPair := by
  rintro ⟨sec, usec⟩ ⟨sec', usec'⟩ h
  obtain ⟨rfl, rfl⟩ := Prod.mk.inj h
  rfl

/-- Times are ordered by the seconds and then by the microseconds. -/
instance : LinearOrder Timeval := LinearOrder.lift' toPair toPair_injective

theorem lessThan_iff : lessThan t1 t2 = true ↔ t1 < t2 := by
  have hlt : t1 < t2 ↔ t1.tvSec < t2.tvSec ∨ t1.tvSec = t2.tvSec ∧ t1.tvUsec < t2.tvUsec :=
    Prod.Lex.toLex_lt_toLex
  rw [hlt]
  simp [lessThan]

theorem equal_iff : equal t1 t2 = true ↔ t1 = t2 := by
  cases t1
  cases t2
  simp [equal]

end Timeval

/-- Source: `timer_stage.h`, `TimerToken` -/
structure TimerToken where
  time : Timeval
  nonce : ℕ
  deriving DecidableEq

namespace TimerToken

/-- Source: `timer_stage.cpp`, `TimerToken::operator<` -/
def less (tt other : TimerToken) : Bool :=
  if tt.time.lessThan other.time then true
  else if tt.time.equal other.time then tt.nonce < other.nonce
  else false

/-- A token as a pair, for the order. -/
def toPair (tt : TimerToken) : Timeval ×ₗ ℕ := toLex (tt.time, tt.nonce)

theorem toPair_injective : Function.Injective toPair := by
  rintro ⟨time, nonce⟩ ⟨time', nonce'⟩ h
  obtain ⟨rfl, rfl⟩ := Prod.mk.inj h
  rfl

/-- Tokens are ordered by the time and then by the number. -/
instance : LinearOrder TimerToken := LinearOrder.lift' toPair toPair_injective

theorem lt_iff {tt other : TimerToken} :
    tt < other ↔ tt.time < other.time ∨ tt.time = other.time ∧ tt.nonce < other.nonce :=
  Prod.Lex.toLex_lt_toLex

/-- The order of the queue. -/
theorem less_iff (tt other : TimerToken) : tt.less other = true ↔ tt < other := by
  unfold less
  rw [lt_iff, ← Timeval.lessThan_iff, ← Timeval.equal_iff]
  split_ifs <;> simp_all

/-- A token that is not after another has no later time. -/
theorem time_le {tt other : TimerToken} (h : tt < other) : tt.time ≤ other.time := by
  rcases lt_iff.mp h with hlt | ⟨heq, -⟩
  · exact hlt.le
  · exact heq.le

end TimerToken

/-! ## The stage -/

/-- A callback with its token. -/
abbrev Timer (E : Type) := TimerToken × E

/-- The stage, and what its threads hold. -/
structure TimerState (E : Type) where
  /-- `nonce_cntr` of `next_nonce`. -/
  nonceCntr : ℕ
  /-- The calls of `register_timer` that have a token and do not have the mutex yet. -/
  calls : List (Timer E)
  /-- `timer_queue_`. -/
  timerQueue : OrderedMap TimerToken E
  /-- `num_events_`. -/
  numEvents : BitVec 32

namespace TimerState

variable {E : Type}

/-- Source: `timer_stage.cpp`, `TimerStage::TimerStage` -/
def init : TimerState E := ⟨0, [], .empty, 0⟩

/-- The section of `register_timer`. It asserts that the token is not in the queue.
Source: `timer_stage.cpp`, `TimerStage::register_timer` -/
def registerTimer (st : TimerState E) (tt : TimerToken) (timerCb : E) : Option (TimerState E) := do
  let timerQueue ← st.timerQueue.insert tt timerCb
  return { st with timerQueue := timerQueue, numEvents := st.numEvents + 1 }

/-- The section of `cancel_timer`, with the callback that is deleted. It succeeds if there is one.
Source: `timer_stage.cpp`, `TimerStage::cancel_timer` -/
def cancelTimer (st : TimerState E) (tt : TimerToken) : Option E × TimerState E :=
  match st.timerQueue.find? tt with
  | some timerCb =>
    (some timerCb,
      { st with timerQueue := st.timerQueue.erase tt, numEvents := st.numEvents - 1 })
  | none => (none, st)

/-- A pass of `check_timer`, with the callbacks that are fired, in their order.
Source: `timer_stage.cpp`, `TimerStage::check_timer` -/
def checkTimer (st : TimerState E) (now : Timeval) : List (Timer E) × TimerState E :=
  let due := fun e : Timer E => !now.lessThan e.1.time
  let doneEvents := st.timerQueue.entries.takeWhile due
  (doneEvents,
    { st with
      timerQueue := st.timerQueue.dropWhile due
      numEvents := doneEvents.foldl (fun n _ => n - 1) st.numEvents })

end TimerState

/-! ## Steps -/

variable {E : Type}

/-- What a step has done. -/
inductive TimerLabel (E : Type)
  /-- A call of `register_timer` has started. -/
  | drawn (timer : Timer E)
  /-- Its timer is in the queue. -/
  | registered (timer : Timer E)
  /-- A token has been cancelled, and this callback has been deleted. -/
  | cancelled (tt : TimerToken) (deleted : Option E)
  /-- A pass has fired these timers. -/
  | checked (now : Timeval) (done : List (Timer E))

/-- A step of some thread. -/
inductive TimerStep : TimerState E → TimerLabel E → TimerState E → Prop
  /-- Source: `timer_stage.cpp`, `TimerToken::next_nonce` -/
  | draw (st : TimerState E) (time : Timeval) (timerCb : E) :
    TimerStep st (.drawn (⟨time, st.nonceCntr⟩, timerCb))
      { st with
        nonceCntr := st.nonceCntr + 1
        calls := (⟨time, st.nonceCntr⟩, timerCb) :: st.calls }
  | register {st st' : TimerState E} {timer : Timer E} {calls : List (Timer E)}
    (hcall : st.calls.Perm (timer :: calls)) (hst : st.registerTimer timer.1 timer.2 = some st') :
    TimerStep st (.registered timer) { st' with calls := calls }
  | cancel (st : TimerState E) (tt : TimerToken) :
    TimerStep st (.cancelled tt (st.cancelTimer tt).1) (st.cancelTimer tt).2
  | check (st : TimerState E) (now : Timeval) :
    TimerStep st (.checked now (st.checkTimer now).1) (st.checkTimer now).2

/-- The assert of a registration fails. -/
def TimerState.Aborts (st : TimerState E) : Prop :=
  ∃ timer ∈ st.calls, st.registerTimer timer.1 timer.2 = none

namespace TimerLabel

/-- The timer of a call that has started. -/
def draws : TimerLabel E → List (Timer E)
  | .drawn timer => [timer]
  | _ => []

/-- The timer that has been registered. -/
def registers : TimerLabel E → List (Timer E)
  | .registered timer => [timer]
  | _ => []

/-- The timer that has been cancelled. -/
def cancels : TimerLabel E → List (Timer E)
  | .cancelled tt (some timerCb) => [(tt, timerCb)]
  | _ => []

/-- The timers that have been fired. -/
def fires : TimerLabel E → List (Timer E)
  | .checked _ done => done
  | _ => []

end TimerLabel

/-! ## The books of a run -/

variable {st st' : TimerState E} {tr : List (TimerLabel E)} {l : TimerLabel E}

/-- Where the timers of a run are. -/
structure TimerBooks (st : TimerState E) (tr : List (TimerLabel E)) : Prop where
  /-- A call that has started has registered its timer or still has to. -/
  calls : (tr.flatMap TimerLabel.draws).Perm (st.calls ++ tr.flatMap TimerLabel.registers)
  nonces : (tr.flatMap TimerLabel.draws).Pairwise fun a b => a.1.nonce < b.1.nonce
  below : ∀ timer ∈ tr.flatMap TimerLabel.draws, timer.1.nonce < st.nonceCntr
  /-- A timer that has been registered is in the queue, fired or cancelled. -/
  states : (tr.flatMap TimerLabel.registers).Perm
    (st.timerQueue.entries ++ (tr.flatMap TimerLabel.fires ++ tr.flatMap TimerLabel.cancels))
  events : st.numEvents = BitVec.ofNat 32 st.timerQueue.entries.length
  due : ∀ now done, .checked now done ∈ tr → ∀ timer ∈ done, timer.1.time ≤ now

/-- No two calls have the same token. -/
theorem TimerBooks.nodup (h : TimerBooks st tr) :
    ((st.calls ++ tr.flatMap TimerLabel.registers).map Prod.fst).Nodup := by
  have hdrawn : ((tr.flatMap TimerLabel.draws).map Prod.fst).Nodup :=
    List.pairwise_map.mpr (h.nonces.imp fun hlt heq => hlt.ne (congrArg TimerToken.nonce heq))
  exact (h.calls.map Prod.fst).nodup_iff.mp hdrawn

/-- The assert does not fail. -/
theorem TimerBooks.not_aborts (h : TimerBooks st tr) : ¬ st.Aborts := by
  rintro ⟨timer, hcall, hnone⟩
  have hinsert : st.timerQueue.insert timer.1 timer.2 = none := by
    cases hins : st.timerQueue.insert timer.1 timer.2 with
    | none => rfl
    | some q => simp [TimerState.registerTimer, hins] at hnone
  obtain ⟨other, hother, htoken⟩ := OrderedMap.insert_eq_none_iff.mp hinsert
  have hregistered : other ∈ tr.flatMap TimerLabel.registers :=
    h.states.mem_iff.mpr (List.mem_append_left _ hother)
  have hnodup := h.nodup
  rw [List.map_append] at hnodup
  exact List.disjoint_of_nodup_append hnodup (List.mem_map_of_mem (f := Prod.fst) hcall)
    (htoken ▸ List.mem_map_of_mem (f := Prod.fst) hregistered)

/-- The labels of a step that fires nothing keep the times. -/
theorem due_concat (h : ∀ now done, .checked now done ∈ tr → ∀ timer ∈ done, timer.1.time ≤ now)
    (hl : ∀ now done, l = .checked now done → ∀ timer ∈ done, timer.1.time ≤ now) :
    ∀ now done, .checked now done ∈ tr ++ [l] → ∀ timer ∈ done, timer.1.time ≤ now := by
  intro now done hmem
  rcases List.mem_append.mp hmem with hmem | hmem
  · exact h now done hmem
  · exact hl now done (List.mem_singleton.mp hmem).symm

/-- The start of a registration. -/
theorem TimerBooks.draw (h : TimerBooks st tr) (time : Timeval) (timerCb : E) :
    TimerBooks
      { st with
        nonceCntr := st.nonceCntr + 1
        calls := (⟨time, st.nonceCntr⟩, timerCb) :: st.calls }
      (tr ++ [.drawn (⟨time, st.nonceCntr⟩, timerCb)]) where
  calls := by
    rw [List.flatMap_append, List.flatMap_append]
    refine (List.perm_append_comm.trans (h.calls.cons _)).trans ?_
    simp [TimerLabel.registers]
  nonces := by
    rw [List.flatMap_append, List.pairwise_append]
    refine ⟨h.nonces, List.pairwise_singleton _ _, fun a ha b hb => ?_⟩
    obtain rfl := List.mem_singleton.mp hb
    exact h.below a ha
  below := by
    intro timer hmem
    rw [List.flatMap_append] at hmem
    rcases List.mem_append.mp hmem with hmem | hmem
    · exact (h.below timer hmem).trans (Nat.lt_succ_self _)
    · obtain rfl := List.mem_singleton.mp hmem
      exact Nat.lt_succ_self _
  states := by simpa [TimerLabel.registers, TimerLabel.fires, TimerLabel.cancels] using h.states
  events := h.events
  due := due_concat h.due nofun

/-- The section of a registration. -/
theorem TimerBooks.register (h : TimerBooks st tr) {timer : Timer E} {calls : List (Timer E)}
    (hcall : st.calls.Perm (timer :: calls)) (hst : st.registerTimer timer.1 timer.2 = some st') :
    TimerBooks { st' with calls := calls } (tr ++ [.registered timer]) := by
  obtain ⟨timerQueue, hinsert, hst'⟩ := Option.bind_eq_some_iff.mp hst
  obtain rfl := Option.some.inj hst'
  have hentries := OrderedMap.entries_perm_insert hinsert
  refine ⟨?_, ?_, ?_, ?_, ?_, due_concat h.due nofun⟩
  · rw [List.flatMap_append, List.flatMap_append]
    have hmove := h.calls.trans (hcall.append_right (tr.flatMap TimerLabel.registers))
    have hback := (List.perm_append_singleton timer (calls ++ tr.flatMap TimerLabel.registers)).symm
    simpa [TimerLabel.draws, TimerLabel.registers] using hmove.trans hback
  · simpa [TimerLabel.draws] using h.nonces
  · simpa [TimerLabel.draws] using h.below
  · rw [List.flatMap_append, List.flatMap_append, List.flatMap_append]
    have hfront := (List.perm_append_singleton timer (tr.flatMap TimerLabel.registers)).trans
      (h.states.cons timer)
    have hqueue := (hentries.append_right
      (tr.flatMap TimerLabel.fires ++ tr.flatMap TimerLabel.cancels)).symm
    simpa [TimerLabel.registers, TimerLabel.fires, TimerLabel.cancels] using hfront.trans hqueue
  · dsimp only
    rw [h.events, hentries.length_eq, List.length_cons, BitVec.ofNat_add]
    rfl

/-- A cancellation. -/
theorem TimerBooks.cancel (h : TimerBooks st tr) (tt : TimerToken) :
    TimerBooks (st.cancelTimer tt).2 (tr ++ [.cancelled tt (st.cancelTimer tt).1]) := by
  have hdraws : (tr ++ [TimerLabel.cancelled tt (st.cancelTimer tt).1]).flatMap TimerLabel.draws =
      tr.flatMap TimerLabel.draws := by
    simp [TimerLabel.draws]
  have hregisters : (tr ++ [TimerLabel.cancelled tt (st.cancelTimer tt).1]).flatMap TimerLabel.registers =
      tr.flatMap TimerLabel.registers := by
    simp [TimerLabel.registers]
  have hfires : (tr ++ [TimerLabel.cancelled tt (st.cancelTimer tt).1]).flatMap TimerLabel.fires =
      tr.flatMap TimerLabel.fires := by
    simp [TimerLabel.fires]
  have hkeep : (st.cancelTimer tt).2.calls = st.calls ∧
      (st.cancelTimer tt).2.nonceCntr = st.nonceCntr := by
    unfold TimerState.cancelTimer
    split <;> exact ⟨rfl, rfl⟩
  refine ⟨?_, ?_, ?_, ?_, ?_, due_concat h.due nofun⟩
  · rw [hdraws, hregisters, hkeep.1]
    exact h.calls
  · rw [hdraws]
    exact h.nonces
  · rw [hdraws, hkeep.2]
    exact h.below
  · rw [hregisters, hfires, List.flatMap_append]
    unfold TimerState.cancelTimer
    cases hfind : st.timerQueue.find? tt with
    | none => simpa [TimerLabel.cancels] using h.states
    | some timerCb =>
      have herase := OrderedMap.entries_perm_erase (OrderedMap.find?_eq_some_iff.mp hfind)
      have hqueue := h.states.trans (herase.append_right
        (tr.flatMap TimerLabel.fires ++ tr.flatMap TimerLabel.cancels))
      have hback := (List.perm_append_singleton (tt, timerCb) ((st.timerQueue.erase tt).entries ++
        (tr.flatMap TimerLabel.fires ++ tr.flatMap TimerLabel.cancels))).symm
      simpa [TimerLabel.cancels] using hqueue.trans hback
  · unfold TimerState.cancelTimer
    cases hfind : st.timerQueue.find? tt with
    | none => exact h.events
    | some timerCb =>
      have herase := OrderedMap.entries_perm_erase (OrderedMap.find?_eq_some_iff.mp hfind)
      dsimp only
      rw [h.events, herase.length_eq, List.length_cons, BitVec.ofNat_add]
      exact BitVec.add_sub_cancel _ _

/-- The timers that a pass takes from the queue, and those that it leaves. -/
theorem checkTimer_eq (st : TimerState E) (now : Timeval) :
    (st.checkTimer now).1 = st.timerQueue.entries.filter (fun e => e.1.time ≤ now) ∧
      (st.checkTimer now).2.timerQueue.entries =
        st.timerQueue.entries.filter (fun e => now < e.1.time) := by
  have hdue : (fun e : Timer E => !now.lessThan e.1.time) = fun e => decide (e.1.time ≤ now) := by
    funext e
    rw [Bool.eq_iff_iff, Bool.not_eq_true', ← Bool.not_eq_true, Timeval.lessThan_iff, not_lt,
      decide_eq_true_eq]
  have hdown : ∀ a ∈ st.timerQueue.entries, ∀ b ∈ st.timerQueue.entries, a.1 < b.1 →
      decide (b.1.time ≤ now) → decide (a.1.time ≤ now) := by
    intro a _ b _ hab hb
    exact decide_eq_true ((TimerToken.time_le hab).trans (of_decide_eq_true hb))
  have hsplit := OrderedMap.takeWhile_dropWhile_eq_filter hdown
  unfold TimerState.checkTimer
  dsimp only
  rw [hdue, hsplit.1, hsplit.2]
  refine ⟨rfl, ?_⟩
  simp only [← decide_not, not_le]

/-- A pass counts one timer after the other. By induction on the timers. -/
theorem foldl_sub_one (done : List (Timer E)) (n : BitVec 32) :
    done.foldl (fun n _ => n - 1) n = n - BitVec.ofNat 32 done.length := by
  induction done generalizing n with
  | nil => simp
  | cons timer done ih =>
    rw [List.foldl_cons, ih, List.length_cons, BitVec.ofNat_add]
    grind

/-- A pass. -/
theorem TimerBooks.check (h : TimerBooks st tr) (now : Timeval) :
    TimerBooks (st.checkTimer now).2 (tr ++ [.checked now (st.checkTimer now).1]) := by
  have hsplit : (st.checkTimer now).1 ++ (st.checkTimer now).2.timerQueue.entries =
      st.timerQueue.entries := List.takeWhile_append_dropWhile
  have hstates := h.states
  have hnum : (st.checkTimer now).2.numEvents =
      st.numEvents - BitVec.ofNat 32 (st.checkTimer now).1.length := foldl_sub_one _ _
  refine ⟨?_, ?_, ?_, ?_, ?_, due_concat h.due ?_⟩
  · simpa [TimerState.checkTimer, TimerLabel.draws, TimerLabel.registers] using h.calls
  · simpa [TimerLabel.draws] using h.nonces
  · simpa [TimerState.checkTimer, TimerLabel.draws] using h.below
  · rw [← hsplit, List.append_assoc] at hstates
    have hqueue := hstates.trans (List.perm_append_comm_assoc _ _ _)
    have hfired := (List.perm_append_comm_assoc (st.checkTimer now).1 (tr.flatMap TimerLabel.fires)
      (tr.flatMap TimerLabel.cancels)).append_left (st.checkTimer now).2.timerQueue.entries
    simpa [TimerLabel.registers, TimerLabel.fires, TimerLabel.cancels] using hqueue.trans hfired
  · rw [hnum, h.events, ← hsplit, List.length_append, Nat.add_comm, BitVec.ofNat_add]
    exact BitVec.add_sub_cancel _ _
  · rintro _ _ ⟨⟩ timer htimer
    rw [(checkTimer_eq st now).1, List.mem_filter] at htimer
    exact of_decide_eq_true htimer.2

/-- Every step keeps the books. -/
theorem TimerBooks.step (h : TimerBooks st tr) (hs : TimerStep st l st') :
    TimerBooks st' (tr ++ [l]) := by
  cases hs with
  | draw time timerCb => exact h.draw time timerCb
  | register hcall hst => exact h.register hcall hst
  | cancel tt => exact h.cancel tt
  | check now => exact h.check now

/-- The books of every run. -/
theorem timerBooks (h : Runs TimerStep TimerState.init tr st) : TimerBooks st tr := by
  refine h.inv (P := fun tr st => TimerBooks st tr) ?_ fun tr s l s' hbooks hs => hbooks.step hs
  exact ⟨List.Perm.refl _, List.Pairwise.nil, nofun, List.Perm.refl _, rfl, nofun⟩

/-! ## Whole runs -/

/-- What holds of the timers after a run. -/
structure TimersInOrder (st : TimerState E) (tr : List (TimerLabel E)) : Prop where
  /-- The assert does not fail. -/
  not_aborts : ¬ st.Aborts
  /-- No two timers have the same token. -/
  tokens : ((tr.flatMap TimerLabel.registers).map Prod.fst).Nodup
  /-- Each timer is pending, fired or cancelled, only one of these and only once. -/
  states : (tr.flatMap TimerLabel.registers).Perm
    (st.timerQueue.entries ++ (tr.flatMap TimerLabel.fires ++ tr.flatMap TimerLabel.cancels))
  /-- No timer has been fired before its time. -/
  due : ∀ now done, .checked now done ∈ tr → ∀ timer ∈ done, timer.1.time ≤ now
  events : st.numEvents = BitVec.ofNat 32 st.timerQueue.entries.length
  /-- The numbers have the order of the calls. -/
  calls : (tr.flatMap TimerLabel.draws).Pairwise (fun a b => a.1.nonce < b.1.nonce) ∧
    ∀ timer ∈ tr.flatMap TimerLabel.registers, timer ∈ tr.flatMap TimerLabel.draws
  /-- The next cancellation succeeds for the timers that are pending. -/
  cancel : ∀ tt, (st.cancelTimer tt).1.isSome ↔ ∃ timer ∈ st.timerQueue.entries, timer.1 = tt
  /-- The next pass fires the timers that are due, in the order of their tokens. -/
  pass : ∀ now,
    (st.checkTimer now).1 = st.timerQueue.entries.filter (fun timer => timer.1.time ≤ now) ∧
      (st.checkTimer now).1.Pairwise (fun a b => a.1 < b.1) ∧
      (st.checkTimer now).2.timerQueue.entries =
        st.timerQueue.entries.filter (fun timer => now < timer.1.time)

/-- A cancellation. -/
theorem isSome_cancelTimer_iff (st : TimerState E) (tt : TimerToken) :
    (st.cancelTimer tt).1.isSome ↔ ∃ timer ∈ st.timerQueue.entries, timer.1 = tt := by
  unfold TimerState.cancelTimer
  cases hfind : st.timerQueue.find? tt with
  | none =>
    refine iff_of_false (by simp) ?_
    rintro ⟨timer, hmem, rfl⟩
    rw [OrderedMap.find?_eq_some_iff.mpr hmem] at hfind
    cases hfind
  | some timerCb =>
    exact iff_of_true rfl ⟨_, OrderedMap.find?_eq_some_iff.mp hfind, rfl⟩

/-- **Timers fire once.** -/
theorem timers_fire_once (h : Runs TimerStep TimerState.init tr st) : TimersInOrder st tr := by
  have hbooks := timerBooks h
  refine ⟨hbooks.not_aborts, ?_, hbooks.states, hbooks.due, hbooks.events, ⟨hbooks.nonces, ?_⟩,
    isSome_cancelTimer_iff st, fun now => ?_⟩
  · have hnodup := hbooks.nodup
    rw [List.map_append] at hnodup
    exact hnodup.of_append_right
  · exact fun timer hmem => hbooks.calls.mem_iff.mpr (List.mem_append_right _ hmem)
  · obtain ⟨hdone, hqueue⟩ := checkTimer_eq st now
    refine ⟨hdone, ?_, hqueue⟩
    rw [hdone]
    exact st.timerQueue.sorted.filter _

/-- One timer, from its registration to the pass that fires it. -/
theorem timers_fire_once_due : ∃ st : TimerState ℕ, ∃ tr, TimersInOrder st tr ∧
    tr.flatMap TimerLabel.fires = [(⟨⟨1, 5⟩, 0⟩, 7)] ∧ st.timerQueue.entries = [] := by
  have hdrawn := Runs.start.next (TimerStep.draw (TimerState.init (E := ℕ)) ⟨1, 5⟩ 7)
  have hregistered := hdrawn.next (.register (List.Perm.refl _) rfl)
  have hfired := hregistered.next (.check _ ⟨2, 0⟩)
  exact ⟨_, _, timers_fire_once hfired, by decide, by decide⟩

end Miniob.Common.Seda
