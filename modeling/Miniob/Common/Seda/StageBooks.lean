import Miniob.Common.Seda.ThreadPool

/-!
# The books of one stage

What the threads owe to a stage is counted thread by thread: a *token* is a call of `schedule`, a
place in the run queue or a call of `remove_event` that stands for one event of the queue.

* `Counts`: the numbers of one stage, as sums over the threads and the run queue.
* `History`: what a run has done with the stage.
* `StageInv`: the invariant, with one lemma for each way in which a section changes the stage.
-/

namespace Miniob.Common.Seda

open Miniob.Lib

variable {S E T : Type} [DecidableEq S]

/-! ## Counting -/

/-- Numbers of one stage. -/
@[ext] structure Counts where
  /-- The tokens. -/
  tokens : ℕ
  /-- The threads that handle an event of the stage. -/
  handling : ℕ
  /-- The threads in `connect` that have not locked `list_mutex_` yet. -/
  entering : ℕ
  /-- The threads in `connect` that schedule the backlog. -/
  connecting : ℕ
  /-- The threads in `disconnect` that have not locked `list_mutex_` yet. -/
  leaving : ℕ
  /-- The threads in `disconnect` that wait until the stage is drained. -/
  draining : ℕ

/-- The tokens of a call. -/
@[simp] def Call.tokens (s : S) : Call S → ℕ
  | .scheduling s' left _ => if s' = s then left + 1 else 0
  | .enqueueing s' left _ => if s' = s then left + 1 else 0
  | _ => 0

/-- The call is a `connect` that has not locked `list_mutex_` yet. -/
@[simp] def Call.entering (s : S) : Call S → ℕ
  | .connecting s' => if s' = s then 1 else 0
  | _ => 0

/-- The call is a `connect` that schedules the backlog. -/
@[simp] def Call.inBacklog (s : S) : Call S → ℕ
  | .scheduling s' _ true => if s' = s then 1 else 0
  | .enqueueing s' _ true => if s' = s then 1 else 0
  | _ => 0

/-- The call is a `disconnect` that has not locked `list_mutex_` yet. -/
@[simp] def Call.leaving (s : S) : Call S → ℕ
  | .disconnecting s' .starting => if s' = s then 1 else 0
  | _ => 0

/-- The call is a `disconnect` that has seen an outstanding event. -/
@[simp] def Call.draining (s : S) : Call S → ℕ
  | .disconnecting _ .starting => 0
  | .disconnecting s' _ => if s' = s then 1 else 0
  | _ => 0

/-- The event is one of the stage. -/
@[simp] def handling (s : S) : Option (S × E) → ℕ
  | some (s', _) => if s' = s then 1 else 0
  | none => 0

/-- What one thread adds to the numbers of a stage. -/
@[simp] def Place.weights (s : S) : Place S E → Counts
  | .removing s' => ⟨if s' = s then 1 else 0, 0, 0, 0, 0, 0⟩
  | .user job call =>
    ⟨call.tokens s, handling s job, call.entering s, call.inBacklog s, call.leaving s,
      call.draining s⟩
  | _ => ⟨0, 0, 0, 0, 0, 0⟩

/-- One thread has gone from a place of weight `w` to one of weight `w'`. -/
structure Moved (c c' w w' : Counts) : Prop where
  tokens : c'.tokens + w.tokens = c.tokens + w'.tokens
  handling : c'.handling + w.handling = c.handling + w'.handling
  entering : c'.entering + w.entering = c.entering + w'.entering
  connecting : c'.connecting + w.connecting = c.connecting + w'.connecting
  leaving : c'.leaving + w.leaving = c.leaving + w'.leaving
  draining : c'.draining + w.draining = c.draining + w'.draining

theorem Moved.eq {c c' w : Counts} (h : Moved c c' w w) : c' = c := by
  ext
  · exact Nat.add_right_cancel h.tokens
  · exact Nat.add_right_cancel h.handling
  · exact Nat.add_right_cancel h.entering
  · exact Nat.add_right_cancel h.connecting
  · exact Nat.add_right_cancel h.leaving
  · exact Nat.add_right_cancel h.draining

/-- The numbers of a stage. -/
def SedaState.counts [Fintype T] (σ : SedaState S E T) (s : S) : Counts where
  tokens := σ.pool.runQueue.count s + total (fun p => (p.weights s).tokens) σ.threads
  handling := total (fun p => (p.weights s).handling) σ.threads
  entering := total (fun p => (p.weights s).entering) σ.threads
  connecting := total (fun p => (p.weights s).connecting) σ.threads
  leaving := total (fun p => (p.weights s).leaving) σ.threads
  draining := total (fun p => (p.weights s).draining) σ.threads

section Counting

variable [Fintype T] {σ : SedaState S E T} {s : S}

theorem SedaState.moved [DecidableEq T] (σ : SedaState S E T) (t : T) (p : Place S E) (s : S) :
    Moved (σ.counts s) ((σ.move t p).counts s) ((σ.threads t).weights s) (p.weights s) := by
  have htotal (f : Counts → ℕ) := total_update (fun p => f (p.weights s)) σ.threads t p
  refine ⟨?_, htotal _, htotal _, htotal _, htotal _, htotal _⟩
  have htokens := htotal Counts.tokens
  simp only [SedaState.counts, SedaState.move]
  omega

@[simp] theorem SedaState.counts_setStage (s' : S) (st : Stage E) :
    (σ.setStage s' st).counts s = σ.counts s := rfl

/-- Waking a thread changes no number. -/
theorem SedaState.counts_congr {places : T → Place S E}
    (h : ∀ t, (places t).weights s = (σ.threads t).weights s) :
    ({ σ with threads := places } : SedaState S E T).counts s = σ.counts s := by
  simp only [SedaState.counts, total, h]

theorem weights_wakeRun (p p' : Place S E) (h : wakeRun p = some p') :
    p'.weights s = p.weights s := by
  cases p <;> simp_all [wakeRun]
  subst h
  rfl

theorem weights_wakeDisconnect {s' : S} (p p' : Place S E) (h : wakeDisconnect s' p = some p') :
    p'.weights s = p.weights s := by
  unfold wakeDisconnect at h
  split at h
  · split at h
    · cases h
      rfl
    · cases h
  · cases h

end Counting

theorem weights_schedules (job : Option (S × E)) (s : S) (backlog : Bool) (n : ℕ) :
    (Place.user job (Call.schedules s backlog n)).weights s =
      ⟨n, handling s job, 0, if backlog = true ∧ 0 < n then 1 else 0, 0, 0⟩ := by
  cases n <;> cases backlog <;> simp [Call.schedules]

theorem weights_schedules_of_ne (job : Option (S × E)) {s s0 : S} (hne : s0 ≠ s) (backlog : Bool)
    (n : ℕ) : (Place.user job (Call.schedules s backlog n)).weights s0 =
      ⟨0, handling s0 job, 0, 0, 0, 0⟩ := by
  cases n <;> cases backlog <;> simp [Call.schedules, hne.symm]

/-! ## What a run has done -/

/-- What a run has done with one stage. -/
structure History (E : Type) where
  /-- The events that were added, each with whether the stage was connected. -/
  added : List (E × Bool)
  /-- The events that were taken out of the queue. -/
  taken : List E
  /-- The number of events added while the stage was connected or found by `connect`. -/
  acquired : ℕ
  /-- The number of events released. -/
  released : ℕ
  /-- `disconnect` has returned, and `connect` has not looked at the queue since. -/
  closed : Bool

/-- Nothing yet. -/
def History.empty : History E := ⟨[], [], 0, 0, false⟩

/-- Note one step. -/
def History.note (s : S) (h : History E) : Label S E → History E
  | .added s' event connected =>
    if s' = s then
      { h with
        added := h.added ++ [(event, connected)]
        acquired := if connected then h.acquired + 1 else h.acquired }
    else h
  | .found s' backlog =>
    if s' = s then { h with acquired := h.acquired + backlog, closed := false } else h
  | .taken s' event => if s' = s then { h with taken := h.taken ++ [event] } else h
  | .released s' => if s' = s then { h with released := h.released + 1 } else h
  | .disconnected s' => if s' = s then { h with closed := true } else h
  | .silent => h

/-- What a run with these labels has done with the stage. -/
def history (s : S) (tr : List (Label S E)) : History E := tr.foldl (History.note s) History.empty

theorem history_concat (s : S) (tr : List (Label S E)) (l : Label S E) :
    history s (tr ++ [l]) = (history s tr).note s l := by
  simp [history, List.foldl_append]

/-! ## The invariant -/

/-- The books of a stage are in order. -/
structure StageInv (st : Stage E) (c : Counts) (h : History E) : Prop where
  /-- Each outstanding event has a token or is handled. -/
  refs : st.eventRef = c.tokens + c.handling
  /-- Each token has an event. -/
  tokens_le : c.tokens ≤ st.eventList.length
  /-- Each event has a token as long as the stage is connected. -/
  tokens_eq : st.connected = true → c.tokens = st.eventList.length
  /-- A stage that is not connected has outstanding events only while `disconnect` waits. -/
  drained : st.connected = false → c.draining = 0 → st.eventRef = 0
  one_connect : c.entering + c.connecting ≤ 1
  apart : c.entering + c.connecting = 0 ∨ c.leaving + c.draining = 0
  entering : 0 < c.entering → st.connected = false
  draining : 0 < c.draining → st.connected = false
  pool : st.connected = true ∨ 0 < st.eventRef ∨ 0 < c.entering → st.thPool = true
  order : h.added.map Prod.fst = h.taken ++ st.eventList
  /-- The events beyond the tokens were added to a stage that was not connected. -/
  waiting : ∀ x ∈ h.added.drop (h.taken.length + c.tokens), x.2 = false
  acquired : st.eventRef + h.released = h.acquired
  closed : h.closed = true → st.connected = false ∧ st.eventRef = 0

namespace StageInv

-- the lemmas below are linear arithmetic over the fields of the two
attribute [grind cases] StageInv Moved

variable {st : Stage E} {c c' : Counts} {h : History E} {j : ℕ} {s : S} {event : E}

theorem length_added (hi : StageInv st c h) :
    h.added.length = h.taken.length + st.eventList.length := by
  rw [← List.length_append, ← hi.order, List.length_map]

theorem addWaiting (hi : StageInv st c h) (hc : st.connected = false) :
    StageInv (st.addEvent event) c (h.note s (.added s event false)) := by
  have hlen := hi.length_added
  constructor <;> grind [Stage.addEvent, History.note]

/-- A connected stage has a token for each event, so none is left beyond the tokens. -/
theorem addScheduled (hi : StageInv st c h) (hc : st.connected = true)
    (hm : Moved c c' ⟨0, j, 0, 0, 0, 0⟩ ⟨1, j, 0, 0, 0, 0⟩) :
    StageInv (st.addEvent event) c' (h.note s (.added s event true)) := by
  have hlen := hi.length_added
  have hnone : (h.added ++ [(event, true)]).drop (h.taken.length + c'.tokens) = [] := by
    apply List.drop_of_length_le
    have htokens : c'.tokens + 0 = c.tokens + 1 := hm.tokens
    have heq := hi.tokens_eq hc
    simp only [List.length_append, List.length_singleton]
    omega
  constructor <;> grind [Stage.addEvent, History.note]

theorem removeEvent {st' : Stage E} (hi : StageInv st c h) (hq : st.removeEvent = some (event, st'))
    (hm : Moved c c' ⟨1, 0, 0, 0, 0, 0⟩ ⟨0, 1, 0, 0, 0, 0⟩) :
    StageInv st' c' (h.note s (.taken s event)) := by
  have hlen := hi.length_added
  constructor <;> grind [Stage.removeEvent, History.note]

theorem releaseEvent (hi : StageInv st c h)
    (hm : Moved c c' ⟨0, 1, 0, 0, 0, 0⟩ ⟨0, 0, 0, 0, 0, 0⟩) :
    StageInv st.releaseEvent c' (h.note s (.released s)) := by
  constructor <;> grind [Stage.releaseEvent, History.note]

theorem setPool (hi : StageInv st c h) : StageInv st.setPool c h := by
  constructor <;> grind [Stage.setPool]

theorem beginConnect (hi : StageInv st c h) (hc : st.connected = false) (hp : st.thPool = true)
    (hconnect : c.entering = 0 ∧ c.connecting = 0) (hdisconnect : c.leaving = 0 ∧ c.draining = 0)
    (hm : Moved c c' ⟨0, j, 0, 0, 0, 0⟩ ⟨0, j, 1, 0, 0, 0⟩) : StageInv st c' h := by
  constructor <;> grind

theorem connectFails (hi : StageInv st c h)
    (hm : Moved c c' ⟨0, j, 1, 0, 0, 0⟩ ⟨0, j, 0, 0, 0, 0⟩) : StageInv st c' h := by
  constructor <;> grind

/-- While `connect` is in progress no `disconnect` is, so there is no outstanding event before. -/
theorem connect {k : ℕ} (hi : StageInv st c h) (hk : k ≤ 1)
    (hm : Moved c c' ⟨0, j, 1, 0, 0, 0⟩ ⟨st.eventList.length, j, 0, k, 0, 0⟩) :
    StageInv st.connect c' (h.note s (.found s st.eventList.length)) := by
  have hlen := hi.length_added
  have href : st.eventRef = 0 := by grind
  have hnone : h.added.drop (h.taken.length + c'.tokens) = [] := by
    apply List.drop_of_length_le
    have htokens : c'.tokens + 0 = c.tokens + st.eventList.length := hm.tokens
    omega
  constructor <;> grind [Stage.connect, History.note]

/-- A token goes from the thread to the run queue. -/
theorem enqueue {k k' n : ℕ} (hi : StageInv st c h) (hk : k' ≤ k)
    (hm : Moved { c with tokens := c.tokens + 1 } c' ⟨n + 1, j, 0, k, 0, 0⟩ ⟨n, j, 0, k', 0, 0⟩) :
    StageInv st c' h := by
  constructor <;> grind

theorem beginDisconnect (hi : StageInv st c h) (hnone : c.entering = 0 ∧ c.connecting = 0)
    (hm : Moved c c' ⟨0, j, 0, 0, 0, 0⟩ ⟨0, j, 0, 0, 1, 0⟩) : StageInv st c' h := by
  constructor <;> grind

theorem disconnectWaits (hi : StageInv st c h) (hr : 0 < st.eventRef)
    (hm : Moved c c' ⟨0, j, 0, 0, 1, 0⟩ ⟨0, j, 0, 0, 0, 1⟩) :
    StageInv st.beginDisconnect c' h := by
  constructor <;> grind [Stage.beginDisconnect]

theorem disconnect (hi : StageInv st c h) (hr : st.eventRef = 0)
    (hm : Moved c c' ⟨0, j, 0, 0, 1, 0⟩ ⟨0, j, 0, 0, 0, 0⟩) :
    StageInv st.beginDisconnect.endDisconnect c' (h.note s (.disconnected s)) := by
  constructor <;> grind [Stage.beginDisconnect, Stage.endDisconnect, History.note]

theorem disconnectWoken (hi : StageInv st c h) (hr : st.eventRef = 0)
    (hm : Moved c c' ⟨0, j, 0, 0, 0, 1⟩ ⟨0, j, 0, 0, 0, 0⟩) :
    StageInv st.endDisconnect c' (h.note s (.disconnected s)) := by
  constructor <;> grind [Stage.endDisconnect, History.note]

end StageInv

end Miniob.Common.Seda
