import Miniob.Common.Seda.Stage
import Miniob.Lib.Threads

/-!
# The thread pool

The threads of one pool take stages off its run queue, each for one event, while they and any
number of other threads add events, connect stages and disconnect them.

* `Threadpool`: the run queue with its number of idle threads.
* `Place`: where a thread stands between two sections. A thread of the pool runs `run_thread`; while
  it handles an event it may call `add_event`, `connect` and `disconnect` like any other thread.
* `Step`: one section under `list_mutex_` or `run_mutex_`, or a wake-up without a signal.

`handle_event` and `done_immediate` are code of the stages and events, so a thread that handles an
event may do any of these calls and may return at any time. The asserts at the start of `connect`,
`disconnect` and `set_pool` are what their callers promise, and so is that a `connect` overlaps with
no other `connect` or `disconnect` of the same stage.

Source: `deps/common/seda/thread_pool.cpp`, `stage.cpp`.
-/

namespace Miniob.Common.Seda

open Miniob.Lib

/-- What the pool keeps under `run_mutex_`.
Source: `thread_pool.h`, `Threadpool` -/
structure Threadpool (S : Type) where
  /-- `run_queue_`: the stages with work to do. -/
  runQueue : List S
  /-- `n_idles_`: the number of idle threads. -/
  nIdles : ℕ

/-- How far a call of `disconnect` is. -/
inductive Disconnect
  /-- Before the section under `list_mutex_`. -/
  | starting
  /-- It waits on `disconnect_cond_`. -/
  | waiting
  /-- It is woken and has not locked `list_mutex_` again. -/
  | woken

/-- The call that a thread is in, with the section it runs next. -/
inductive Call (S : Type)
  /-- In none. -/
  | idle
  /-- In `connect`, past the asserts: `initialize` runs. -/
  | connecting (s : S)
  /-- Before the assert of `schedule`, with `left` more calls of it to come after this one.
  `backlog` tells the loop of `connect` from `add_event`. -/
  | scheduling (s : S) (left : ℕ) (backlog : Bool)
  /-- In `schedule`, past the assert. -/
  | enqueueing (s : S) (left : ℕ) (backlog : Bool)
  /-- In `disconnect`. -/
  | disconnecting (s : S) (phase : Disconnect)

/-- Where a thread stands. -/
inductive Place (S E : Type)
  /-- A thread of the pool before `run_mutex_`. -/
  | fetching
  /-- A thread of the pool that waits on `run_cond_`. -/
  | waiting
  /-- A thread of the pool that is woken and has not locked `run_mutex_` again. -/
  | woken
  /-- A thread of the pool that has taken a stage off the run queue. -/
  | removing (s : S)
  /-- A thread that runs other code: one of the pool with the event that it handles, or one from
  outside. -/
  | user (job : Option (S × E)) (call : Call S)

variable {S E T : Type}

/-- The loop of `connect` with `n` events of the backlog left.
Source: `stage.cpp`, `Stage::connect` -/
def Call.schedules (s : S) (backlog : Bool) : ℕ → Call S
  | 0 => .idle
  | n + 1 => .scheduling s n backlog

/-- The pool's thread key is set: `get_thread_pool_ptr()` returns the pool.
Source: `thread_pool.cpp`, `Threadpool::run_thread` -/
def Place.isWorker : Place S E → Bool
  | .user none _ => false
  | _ => true

/-- The thread waits on `run_cond_`. -/
def Place.isWaiting : Place S E → Bool
  | .waiting => true
  | _ => false

/-- The thread is in `connect` or `disconnect` of the stage. -/
def Place.inConnect [DecidableEq S] (s : S) : Place S E → Bool
  | .user _ (.connecting s') => s' = s
  | .user _ (.scheduling s' _ backlog) => s' = s && backlog
  | .user _ (.enqueueing s' _ backlog) => s' = s && backlog
  | _ => false

/-- The thread is in `disconnect` of the stage. -/
def Place.inDisconnect [DecidableEq S] (s : S) : Place S E → Bool
  | .user _ (.disconnecting s' _) => s' = s
  | _ => false

/-- What a signal on `run_cond_` does to a thread that waits for it. -/
def wakeRun : Place S E → Option (Place S E)
  | .waiting => some .woken
  | _ => none

/-- What a signal on the `disconnect_cond_` of a stage does to a thread that waits for it. -/
def wakeDisconnect [DecidableEq S] (s : S) : Place S E → Option (Place S E)
  | .user job (.disconnecting s' .waiting) =>
    if s' = s then some (.user job (.disconnecting s' .woken)) else none
  | _ => none

namespace Threadpool

/-- The run queue part of `schedule`.
Source: `thread_pool.cpp`, `Threadpool::schedule` -/
def push (pool : Threadpool S) (s : S) : Threadpool S :=
  { pool with runQueue := pool.runQueue ++ [s] }

/-- Whether `schedule` signals: not if the queue was empty and a thread of the pool calls it.
Source: `thread_pool.cpp`, `Threadpool::schedule` -/
def signals (pool : Threadpool S) (isWorker : Bool) : Bool :=
  (!pool.runQueue.isEmpty || !isWorker) && decide (0 < pool.nIdles)

end Threadpool

/-- The stages, the pool and the threads. -/
structure SedaState (S E T : Type) where
  /-- The stages. -/
  stages : S → Stage E
  /-- The pool. -/
  pool : Threadpool S
  /-- Where each thread stands. -/
  threads : T → Place S E
  /-- An assert has failed. -/
  failed : Bool

/-- What a step does that a run is judged by. -/
inductive Label (S E : Type)
  /-- `add_event` on a stage, and whether the stage was connected. -/
  | added (s : S) (event : E) (connected : Bool)
  /-- `connect` has found `backlog` events. -/
  | found (s : S) (backlog : ℕ)
  /-- `remove_event` has returned the event. -/
  | taken (s : S) (event : E)
  /-- `release_event`. -/
  | released (s : S)
  /-- `disconnect` returns. -/
  | disconnected (s : S)
  /-- Anything else. -/
  | silent

namespace SedaState

/-- No stage is connected or has an event, and the threads of the pool start `run_thread`. -/
def init (worker : T → Bool) : SedaState S E T where
  stages _ := Stage.init
  pool := ⟨[], 0⟩
  threads t := if worker t then .fetching else .user none .idle
  failed := false

variable [DecidableEq S]

/-- Change one stage. -/
def setStage (σ : SedaState S E T) (s : S) (st : Stage E) : SedaState S E T :=
  { σ with stages := Function.update σ.stages s st }

theorem setStage_self (σ : SedaState S E T) (s : S) : σ.setStage s (σ.stages s) = σ := by
  simp [setStage]

variable [DecidableEq T]

/-- Move one thread. -/
def move (σ : SedaState S E T) (t : T) (place : Place S E) : SedaState S E T :=
  { σ with threads := Function.update σ.threads t place }

/-- The next section of the thread begins with an assert that does not hold, or calls a pool that
is null. -/
inductive Aborts (σ : SedaState S E T) (t : T) : Prop
  /-- `assert(th_pool_ != NULL)` in `add_event`. -/
  | addEvent {job : Option (S × E)} {s : S} (ht : σ.threads t = .user job .idle)
    (hc : (σ.stages s).connected = true) (hp : (σ.stages s).thPool = false)
  /-- `th_pool_->schedule(this)` with a null pool. -/
  | nullPool {job : Option (S × E)} {s : S} {left : ℕ} {backlog : Bool}
    (ht : σ.threads t = .user job (.scheduling s left backlog))
    (hp : (σ.stages s).thPool = false)
  /-- `assert(!stage->qempty())` in `schedule`. -/
  | schedule {job : Option (S × E)} {s : S} {left : ℕ} {backlog : Bool}
    (ht : σ.threads t = .user job (.scheduling s left backlog))
    (hq : (σ.stages s).qempty = true)
  /-- `assert(!event_list_.empty())` in `remove_event`. -/
  | removeEvent {s : S} (ht : σ.threads t = .removing s)
    (hq : (σ.stages s).removeEvent = none)

end SedaState

variable [DecidableEq S] [DecidableEq T]

open SedaState in
/-- One section of one thread, or a wake-up. -/
inductive Step : SedaState S E T → Label S E → SedaState S E T → Prop
  /-- An assert fails. -/
  | abort {σ : SedaState S E T} {t : T} (h : Aborts σ t) : Step σ .silent { σ with failed := true }
  /-- `set_pool`. -/
  | setPool {σ : SedaState S E T} {t : T} {job : Option (S × E)} {s : S}
    (ht : σ.threads t = .user job .idle) (hc : (σ.stages s).connected = false) :
    Step σ .silent (σ.setStage s (σ.stages s).setPool)
  /-- `add_event` on a stage that is not connected. -/
  | addEvent {σ : SedaState S E T} {t : T} {job : Option (S × E)} {s : S} {e : E}
    (ht : σ.threads t = .user job .idle) (hc : (σ.stages s).connected = false) :
    Step σ (.added s e false) (σ.setStage s ((σ.stages s).addEvent e))
  /-- `add_event` on a stage that is connected. -/
  | addScheduled {σ : SedaState S E T} {t : T} {job : Option (S × E)} {s : S} {e : E}
    (ht : σ.threads t = .user job .idle) (hc : (σ.stages s).connected = true)
    (hp : (σ.stages s).thPool = true) :
    Step σ (.added s e true)
      ((σ.setStage s ((σ.stages s).addEvent e)).move t (.user job (.scheduling s 0 false)))
  /-- `schedule`: the assert holds. -/
  | schedule {σ : SedaState S E T} {t : T} {job : Option (S × E)} {s : S} {left : ℕ}
    {backlog : Bool} (ht : σ.threads t = .user job (.scheduling s left backlog))
    (hp : (σ.stages s).thPool = true) (hq : (σ.stages s).qempty = false) :
    Step σ .silent (σ.move t (.user job (.enqueueing s left backlog)))
  /-- `schedule`: the stage goes to the back of the run queue without a signal. -/
  | enqueue {σ : SedaState S E T} {t : T} {job : Option (S × E)} {s : S} {left : ℕ} {backlog : Bool}
    (ht : σ.threads t = .user job (.enqueueing s left backlog))
    (hs : σ.pool.signals (σ.threads t).isWorker = false) :
    Step σ .silent
      ({ σ with pool := σ.pool.push s }.move t (.user job (Call.schedules s backlog left)))
  /-- `schedule`: the stage goes to the back of the run queue, and `run_cond_` is signalled. -/
  | enqueueSignal {σ : SedaState S E T} {t : T} {job : Option (S × E)} {s : S} {left : ℕ}
    {backlog : Bool} {places : T → Place S E}
    (ht : σ.threads t = .user job (.enqueueing s left backlog))
    (hs : σ.pool.signals (σ.threads t).isWorker = true)
    (hw : Signals wakeRun σ.threads places) :
    Step σ .silent
      ({ σ with pool := σ.pool.push s, threads := places }.move t
        (.user job (Call.schedules s backlog left)))
  /-- `run_thread`: the run queue is empty, and the thread begins to wait. -/
  | wait {σ : SedaState S E T} {t : T} (ht : σ.threads t = .fetching) (hq : σ.pool.runQueue = []) :
    Step σ .silent ({ σ with pool := { σ.pool with nIdles := σ.pool.nIdles + 1 } }.move t .waiting)
  /-- `run_thread`: the thread takes a stage off the run queue. -/
  | fetch {σ : SedaState S E T} {t : T} {s : S} {rest : List S} (ht : σ.threads t = .fetching)
    (hq : σ.pool.runQueue = s :: rest) :
    Step σ .silent ({ σ with pool := { σ.pool with runQueue := rest } }.move t (.removing s))
  /-- A thread that waits on `run_cond_` is woken without a signal. -/
  | spuriousRun {σ : SedaState S E T} {places : T → Place S E} (hw : Woken wakeRun σ.threads places) :
    Step σ .silent { σ with threads := places }
  /-- `run_thread` after a wake-up: the run queue is empty, and the thread waits again. -/
  | waitAgain {σ : SedaState S E T} {t : T} (ht : σ.threads t = .woken)
    (hq : σ.pool.runQueue = []) :
    Step σ .silent
      ({ σ with pool := { σ.pool with nIdles := σ.pool.nIdles - 1 + 1 } }.move t .waiting)
  /-- `run_thread` after a wake-up: the thread takes a stage off the run queue. -/
  | fetchWoken {σ : SedaState S E T} {t : T} {s : S} {rest : List S} (ht : σ.threads t = .woken)
    (hq : σ.pool.runQueue = s :: rest) :
    Step σ .silent ({ σ with pool := ⟨rest, σ.pool.nIdles - 1⟩ }.move t (.removing s))
  /-- `remove_event`. -/
  | removeEvent {σ : SedaState S E T} {t : T} {s : S} {event : E} {st : Stage E}
    (ht : σ.threads t = .removing s) (hq : (σ.stages s).removeEvent = some (event, st)) :
    Step σ (.taken s event) ((σ.setStage s st).move t (.user (some (s, event)) .idle))
  /-- `release_event`: the event is handled, and `disconnect_cond_` is not signalled. -/
  | releaseEvent {σ : SedaState S E T} {t : T} {s : S} {event : E}
    (ht : σ.threads t = .user (some (s, event)) .idle)
    (hd : (σ.stages s).releaseEvent.drained = false) :
    Step σ (.released s) ((σ.setStage s (σ.stages s).releaseEvent).move t .fetching)
  /-- `release_event`: the event is handled, and `disconnect_cond_` is signalled. -/
  | releaseSignal {σ : SedaState S E T} {t : T} {s : S} {event : E} {places : T → Place S E}
    (ht : σ.threads t = .user (some (s, event)) .idle)
    (hd : (σ.stages s).releaseEvent.drained = true)
    (hw : Signals (wakeDisconnect s) σ.threads places) :
    Step σ (.released s)
      ({ σ.setStage s (σ.stages s).releaseEvent with threads := places }.move t .fetching)
  /-- `connect` begins on a stage that is not connected and is in no `connect` or `disconnect`. -/
  | beginConnect {σ : SedaState S E T} {t : T} {job : Option (S × E)} {s : S}
    (ht : σ.threads t = .user job .idle) (hc : (σ.stages s).connected = false)
    (hp : (σ.stages s).thPool = true)
    (halone : ∀ u, (σ.threads u).inConnect s = false ∧ (σ.threads u).inDisconnect s = false) :
    Step σ .silent (σ.move t (.user job (.connecting s)))
  /-- `connect` when `initialize` fails. -/
  | connectFails {σ : SedaState S E T} {t : T} {job : Option (S × E)} {s : S}
    (ht : σ.threads t = .user job (.connecting s)) : Step σ .silent (σ.move t (.user job .idle))
  /-- `connect`: the section under `list_mutex_`. -/
  | connect {σ : SedaState S E T} {t : T} {job : Option (S × E)} {s : S}
    (ht : σ.threads t = .user job (.connecting s)) :
    Step σ (.found s (σ.stages s).eventList.length)
      ((σ.setStage s (σ.stages s).connect).move t
        (.user job (Call.schedules s true (σ.stages s).eventList.length)))
  /-- `disconnect` begins on a stage that is connected and is in no `connect`. -/
  | beginDisconnect {σ : SedaState S E T} {t : T} {job : Option (S × E)} {s : S}
    (ht : σ.threads t = .user job .idle) (hc : (σ.stages s).connected = true)
    (halone : ∀ u, (σ.threads u).inConnect s = false) :
    Step σ .silent (σ.move t (.user job (.disconnecting s .starting)))
  /-- `disconnect` locks `list_mutex_` and has to wait. -/
  | disconnectWaits {σ : SedaState S E T} {t : T} {job : Option (S × E)} {s : S}
    (ht : σ.threads t = .user job (.disconnecting s .starting))
    (hr : 0 < (σ.stages s).eventRef) :
    Step σ .silent
      ((σ.setStage s (σ.stages s).beginDisconnect).move t (.user job (.disconnecting s .waiting)))
  /-- `disconnect` locks `list_mutex_` and need not wait. -/
  | disconnect {σ : SedaState S E T} {t : T} {job : Option (S × E)} {s : S}
    (ht : σ.threads t = .user job (.disconnecting s .starting))
    (hr : (σ.stages s).eventRef = 0) :
    Step σ (.disconnected s)
      ((σ.setStage s (σ.stages s).beginDisconnect.endDisconnect).move t (.user job .idle))
  /-- A thread that waits on `disconnect_cond_` is woken without a signal. -/
  | spuriousDisconnect {σ : SedaState S E T} {s : S} {places : T → Place S E}
    (hw : Woken (wakeDisconnect s) σ.threads places) : Step σ .silent { σ with threads := places }
  /-- `disconnect` after a wake-up waits again. -/
  | disconnectWaitsAgain {σ : SedaState S E T} {t : T} {job : Option (S × E)} {s : S}
    (ht : σ.threads t = .user job (.disconnecting s .woken))
    (hr : 0 < (σ.stages s).eventRef) :
    Step σ .silent (σ.move t (.user job (.disconnecting s .waiting)))
  /-- `disconnect` after a wake-up returns. -/
  | disconnectWoken {σ : SedaState S E T} {t : T} {job : Option (S × E)} {s : S}
    (ht : σ.threads t = .user job (.disconnecting s .woken))
    (hr : (σ.stages s).eventRef = 0) :
    Step σ (.disconnected s)
      ((σ.setStage s (σ.stages s).endDisconnect).move t (.user job .idle))

end Miniob.Common.Seda
