import Mathlib.Data.List.Basic

/-!
# Stages

A stage keeps the events that wait for it. The pool's threads take them out one by one, and a stage
that is disconnected waits until none of the events it has promised to the pool is outstanding.

Each definition below is one section of the source that runs under `list_mutex_`. The events are of
any type `E`, and `th_pool_` is modelled by whether it is set, as there is only one pool.

Source: `deps/common/seda/stage.cpp`, `stage.h`.
-/

namespace Miniob.Common.Seda

variable {E : Type}

/-- A stage.
Source: `stage.h`, `Stage` -/
structure Stage (E : Type) where
  /-- `event_list_`: the events that wait. -/
  eventList : List E
  /-- `connected_`: the stage is connected to the pool. -/
  connected : Bool
  /-- `event_ref_`: the number of outstanding events. -/
  eventRef : ℕ
  /-- `th_pool_` is not null. -/
  thPool : Bool
  deriving DecidableEq

namespace Stage

/-- A new stage.
Source: `stage.cpp`, `Stage::Stage` -/
def init : Stage E := ⟨[], false, 0, false⟩

/-- Source: `stage.h`, `Stage::set_pool` -/
def setPool (st : Stage E) : Stage E := { st with thPool := true }

/-- The section of `add_event`: the event goes to the back of the queue, and a stage that is
connected counts it.
Source: `stage.cpp`, `Stage::add_event` -/
def addEvent (st : Stage E) (event : E) : Stage E :=
  { st with
    eventList := st.eventList ++ [event]
    eventRef := if st.connected then st.eventRef + 1 else st.eventRef }

/-- The section of `connect`: what is in the queue is outstanding from now on.
Source: `stage.cpp`, `Stage::connect` -/
def connect (st : Stage E) : Stage E :=
  { st with eventRef := st.eventList.length, connected := true }

/-- Source: `stage.cpp`, `Stage::qempty` -/
def qempty (st : Stage E) : Bool := st.eventList.isEmpty

/-- The section of `remove_event`, which asserts that there is an event.
Source: `stage.cpp`, `Stage::remove_event` -/
def removeEvent (st : Stage E) : Option (E × Stage E) :=
  match st.eventList with
  | [] => none
  | event :: rest => some (event, { st with eventList := rest })

/-- The section of `release_event`, less the signal.
Source: `stage.cpp`, `Stage::release_event` -/
def releaseEvent (st : Stage E) : Stage E := { st with eventRef := st.eventRef - 1 }

/-- A stage that is not connected and has no outstanding event: `release_event` signals
`disconnect_cond_`, and `disconnect` need not wait any longer.
Source: `stage.cpp`, `Stage::release_event` -/
def drained (st : Stage E) : Bool := !st.connected && st.eventRef == 0

/-- The section of `disconnect` up to its loop.
Source: `stage.cpp`, `Stage::disconnect` -/
def beginDisconnect (st : Stage E) : Stage E := { st with connected := false }

/-- The section of `disconnect` after its loop.
Source: `stage.cpp`, `Stage::disconnect` -/
def endDisconnect (st : Stage E) : Stage E := { st with thPool := false }

end Stage

end Miniob.Common.Seda
