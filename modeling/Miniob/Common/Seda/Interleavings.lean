import Miniob.Common.Seda.StageBooks

/-!
# Every interleaving of the threads

The invariants of the whole system: the books of each stage, the number of idle threads, and that a
thread of the pool is up as long as there is work.

* `books_step`: every section keeps the books of every stage.
* `awake_step`: every section keeps `Awake`, which is why `schedule` may leave out the signal when a
  thread of the pool calls it.
* `stage_queues_lose_nothing`: the result for every run.
-/

namespace Miniob.Common.Seda

open Miniob.Lib

variable {S E T : Type}

/-! ## The books of the stages -/

section Books

variable [DecidableEq S] [Fintype T] {σ σ' : SedaState S E T} {t : T} {p p' : Place S E} {s : S}
  {st : Stage E} {tr : List (Label S E)} {l : Label S E}

/-- The books of every stage are in order. -/
def Books (σ : SedaState S E T) (tr : List (Label S E)) : Prop :=
  ∀ s, StageInv (σ.stages s) (σ.counts s) (history s tr)

/-- The tokens that a thread holds are among those of the stage. -/
theorem tokens_le_counts (σ : SedaState S E T) (t : T) (s : S) :
    ((σ.threads t).weights s).tokens ≤ (σ.counts s).tokens := by
  have h := le_total (fun p => (p.weights s).tokens) σ.threads t
  simp only [SedaState.counts]
  omega

/-- A thread with a token finds an event in the queue. -/
theorem Books.token (h : Books σ tr) (t : T) (s : S) (ht : 0 < ((σ.threads t).weights s).tokens) :
    (σ.stages s).thPool = true ∧ (σ.stages s).eventList ≠ [] := by
  have htoken := tokens_le_counts σ t s
  have hrefs := (h s).refs
  have hlen := (h s).tokens_le
  constructor
  · apply (h s).pool
    omega
  · rw [← List.length_pos_iff]
    omega

/-- No assert can fail. -/
theorem Books.not_aborts (h : Books σ tr) : ¬ σ.Aborts t := by
  rintro (@⟨_, s, ht, hc, hp⟩ | @⟨_, s, _, _, ht, hp⟩ | @⟨_, s, _, _, ht, hq⟩ | @⟨s, ht, hq⟩)
  · rw [(h s).pool (.inl hc)] at hp
    cases hp
  · have htoken := h.token t s (by rw [ht]; simp)
    rw [htoken.1] at hp
    cases hp
  · have htoken := h.token t s (by rw [ht]; simp)
    exact htoken.2 (List.isEmpty_iff.1 hq)
  · have htoken := h.token t s (by rw [ht]; simp)
    cases hlist : (σ.stages s).eventList with
    | nil => exact htoken.2 hlist
    | cons event rest => simp [Stage.removeEvent, hlist] at hq

/-- A silent step that changes neither a stage nor a number. -/
theorem Books.silent (h : Books σ tr) (hs : σ'.stages = σ.stages)
    (hc : ∀ s, σ'.counts s = σ.counts s) : Books σ' (tr ++ [.silent]) := by
  intro s
  rw [history_concat, hs, hc]
  exact h s

/-- A step that moves no thread. -/
theorem Books.setStage (h : Books σ tr) (hself : StageInv st (σ.counts s) ((history s tr).note s l))
    (hnote : ∀ s0, s0 ≠ s → ∀ h : History E, h.note s0 l = h) :
    Books (σ.setStage s st) (tr ++ [l]) := by
  intro s0
  rw [history_concat, SedaState.counts_setStage]
  obtain rfl | hne := eq_or_ne s0 s
  · have hst : (σ.setStage s0 st).stages s0 = st := Function.update_self _ _ _
    rw [hst]
    exact hself
  · have hst : (σ.setStage s st).stages s0 = σ.stages s0 := Function.update_of_ne hne _ _
    rw [hst, hnote s0 hne]
    exact h s0

/-- A wake-up. -/
theorem Books.wake (h : Books σ tr) {places : T → Place S E}
    (hp : ∀ s t, (places t).weights s = (σ.threads t).weights s) :
    Books { σ with threads := places } tr := by
  intro s
  rw [SedaState.counts_congr (hp s)]
  exact h s

theorem counts_of_not_inConnect (h : ∀ u, (σ.threads u).inConnect s = false) :
    (σ.counts s).entering = 0 ∧ (σ.counts s).connecting = 0 := by
  have hplace : ∀ p : Place S E, p.inConnect s = false →
      (p.weights s).entering = 0 ∧ (p.weights s).connecting = 0 := by
    rintro (_ | _ | _ | _ | ⟨job, _ | _ | ⟨_, _, _ | _⟩ | ⟨_, _, _ | _⟩ | _⟩) hp <;>
      simp_all [Place.inConnect]
  constructor
  · exact (total_eq_zero_iff _ _).2 fun u => (hplace _ (h u)).1
  · exact (total_eq_zero_iff _ _).2 fun u => (hplace _ (h u)).2

theorem counts_of_not_inDisconnect (h : ∀ u, (σ.threads u).inDisconnect s = false) :
    (σ.counts s).leaving = 0 ∧ (σ.counts s).draining = 0 := by
  have hplace : ∀ p : Place S E, p.inDisconnect s = false →
      (p.weights s).leaving = 0 ∧ (p.weights s).draining = 0 := by
    rintro (_ | _ | _ | _ | ⟨job, _ | _ | _ | _ | ⟨_, _ | _ | _⟩⟩) hp <;>
      simp_all [Place.inDisconnect]
  constructor
  · exact (total_eq_zero_iff _ _).2 fun u => (hplace _ (h u)).1
  · exact (total_eq_zero_iff _ _).2 fun u => (hplace _ (h u)).2

variable [DecidableEq T]

/-- A step of one thread in one stage. -/
theorem Books.move (h : Books σ tr) (ht : σ.threads t = p)
    (hself : ∀ c', Moved (σ.counts s) c' (p.weights s) (p'.weights s) →
      StageInv st c' ((history s tr).note s l))
    (hweights : ∀ s0, s0 ≠ s → p'.weights s0 = p.weights s0)
    (hnote : ∀ s0, s0 ≠ s → ∀ h : History E, h.note s0 l = h) :
    Books ((σ.setStage s st).move t p') (tr ++ [l]) := by
  intro s0
  have hm : Moved (σ.counts s0) (((σ.setStage s st).move t p').counts s0) (p.weights s0)
      (p'.weights s0) := by
    rw [← ht]
    exact (σ.setStage s st).moved t p' s0
  rw [history_concat]
  obtain rfl | hne := eq_or_ne s0 s
  · have hst : ((σ.setStage s0 st).move t p').stages s0 = st := Function.update_self _ _ _
    rw [hst]
    exact hself _ hm
  · rw [hweights s0 hne] at hm
    have hst : ((σ.setStage s st).move t p').stages s0 = σ.stages s0 :=
      Function.update_of_ne hne _ _
    rw [hst, hm.eq, hnote s0 hne]
    exact h s0

/-- A step of one thread that changes no stage. -/
theorem Books.moveOnly (h : Books σ tr) (s : S) (ht : σ.threads t = p)
    (hself : ∀ c', Moved (σ.counts s) c' (p.weights s) (p'.weights s) →
      StageInv (σ.stages s) c' (history s tr))
    (hweights : ∀ s0, s0 ≠ s → p'.weights s0 = p.weights s0) :
    Books (σ.move t p') (tr ++ [.silent]) := by
  have hmove : Books ((σ.setStage s (σ.stages s)).move t p') (tr ++ [.silent]) :=
    h.move ht hself hweights fun _ _ _ => rfl
  rwa [SedaState.setStage_self] at hmove

/-- A thread puts a stage on the run queue. -/
theorem Books.enqueue (h : Books σ tr) {job : Option (S × E)} {left : ℕ} {backlog : Bool}
    (ht : σ.threads t = .user job (.enqueueing s left backlog)) :
    Books ({ σ with pool := σ.pool.push s }.move t (.user job (Call.schedules s backlog left)))
      (tr ++ [.silent]) := by
  intro s0
  have hm := ({ σ with pool := σ.pool.push s } : SedaState S E T).moved t
    (.user job (Call.schedules s backlog left)) s0
  rw [history_concat]
  obtain rfl | hne := eq_or_ne s0 s
  · have hpush : ({ σ with pool := σ.pool.push s0 } : SedaState S E T).counts s0 =
        { σ.counts s0 with tokens := (σ.counts s0).tokens + 1 } := by
      simp only [SedaState.counts, Threadpool.push, List.count_append, List.count_singleton_self]
      congr 1
      omega
    have hwas : (σ.threads t).weights s0 =
        ⟨left + 1, handling s0 job, 0, if backlog = true then 1 else 0, 0, 0⟩ := by
      rw [ht]
      cases backlog <;> simp
    rw [hpush, hwas, weights_schedules] at hm
    apply (h s0).enqueue _ hm
    split
    · simp_all
    · exact Nat.zero_le _
  · have hpush : ({ σ with pool := σ.pool.push s } : SedaState S E T).counts s0 = σ.counts s0 := by
      simp [SedaState.counts, Threadpool.push, List.count_append, hne.symm]
    have hwas : (σ.threads t).weights s0 = ⟨0, handling s0 job, 0, 0, 0, 0⟩ := by
      rw [ht]
      cases backlog <;> simp [hne.symm]
    rw [hpush, hwas, weights_schedules_of_ne _ hne] at hm
    rw [hm.eq]
    exact h s0

/-- A thread takes a stage off the run queue. -/
theorem Books.fetch (h : Books σ tr) {rest : List S} {n : ℕ} (hq : σ.pool.runQueue = s :: rest)
    (hp : ∀ s, p.weights s = ⟨0, 0, 0, 0, 0, 0⟩) (ht : σ.threads t = p) :
    Books ({ σ with pool := ⟨rest, n⟩ }.move t (.removing s)) (tr ++ [.silent]) := by
  refine Books.silent (σ := σ) h rfl fun s0 => ?_
  obtain ⟨m1, m2, m3, m4, m5, m6⟩ :=
    ({ σ with pool := ⟨rest, n⟩ } : SedaState S E T).moved t (.removing s) s0
  rw [show ({ σ with pool := ⟨rest, n⟩ } : SedaState S E T).threads t = p from ht, hp] at *
  ext
  · simp only [Place.weights, SedaState.counts, hq, List.count_cons] at m1 ⊢
    simp only [beq_iff_eq]
    grind
  all_goals assumption

/-- A thread of the pool begins to wait. -/
theorem Books.wait (h : Books σ tr) {n : ℕ} (hp : ∀ s, p.weights s = ⟨0, 0, 0, 0, 0, 0⟩)
    (ht : σ.threads t = p) :
    Books ({ σ with pool := { σ.pool with nIdles := n } }.move t .waiting) (tr ++ [.silent]) := by
  refine Books.silent (σ := σ) h rfl fun s0 => ?_
  have hm := ({ σ with pool := { σ.pool with nIdles := n } } : SedaState S E T).moved t .waiting s0
  rw [show ({ σ with pool := { σ.pool with nIdles := n } } : SedaState S E T).threads t = p from ht,
    hp] at hm
  exact hm.eq

/-- Every section keeps the books. -/
theorem books_step (h : Books σ tr) (hs : Step σ l σ') : Books σ' (tr ++ [l]) := by
  cases hs with
  | abort ha => exact absurd ha h.not_aborts
  | @setPool t job s ht hc => exact h.setStage (h s).setPool fun _ _ _ => rfl
  | @addEvent t job s event ht hc =>
    apply h.setStage ((h s).addWaiting hc)
    intro s0 hne hist
    simp [History.note, hne.symm]
  | @addScheduled t job s event ht hc hp =>
    apply h.move ht
    · intro c' hm
      exact (h s).addScheduled hc (by simpa using hm)
    · intro s0 hne
      simp [hne.symm]
    · intro s0 hne hist
      simp [History.note, hne.symm]
  | @schedule t job s left backlog ht hp hq =>
    apply h.moveOnly s ht
    · intro c' hm
      cases backlog <;> rw [hm.eq] <;> exact h s
    · intro s0 hne
      cases backlog <;> rfl
  | enqueue ht hs => exact h.enqueue ht
  | @enqueueSignal t job s left backlog places ht hs hw =>
    have hplaces : ∀ s t, (places t).weights s = (σ.threads t).weights s := fun s =>
      hw.map_eq weights_wakeRun
    apply (h.wake hplaces).enqueue
    exact (hw.apply_eq (by rw [ht]; rfl)).trans ht
  | wait ht hq => exact h.wait (fun _ => rfl) ht
  | fetch ht hq => exact h.fetch hq (fun _ => rfl) ht
  | spuriousRun hw =>
    apply Books.silent h
    · rfl
    · exact fun s => SedaState.counts_congr (hw.map_eq weights_wakeRun)
  | waitAgain ht hq => exact h.wait (fun _ => rfl) ht
  | fetchWoken ht hq => exact h.fetch hq (fun _ => rfl) ht
  | @removeEvent t s event st ht hq =>
    apply h.move ht
    · intro c' hm
      exact (h s).removeEvent hq (by simpa using hm)
    · intro s0 hne
      simp [hne.symm]
    · intro s0 hne hist
      simp [History.note, hne.symm]
  | @releaseEvent t s event ht hd =>
    apply h.move ht
    · intro c' hm
      exact (h s).releaseEvent (by simpa using hm)
    · intro s0 hne
      simp [hne.symm]
    · intro s0 hne hist
      simp [History.note, hne.symm]
  | @releaseSignal t s event places ht hd hw =>
    have hplaces : ∀ s t, (places t).weights s = (σ.threads t).weights s := fun s =>
      hw.map_eq weights_wakeDisconnect
    apply (h.wake hplaces).move ((hw.apply_eq (by rw [ht]; rfl)).trans ht)
    · intro c' hm
      exact (h.wake hplaces s).releaseEvent (by simpa using hm)
    · intro s0 hne
      simp [hne.symm]
    · intro s0 hne hist
      simp [History.note, hne.symm]
  | @beginConnect t job s ht hc hp halone =>
    apply h.moveOnly s ht
    · intro c' hm
      exact (h s).beginConnect hc hp (counts_of_not_inConnect fun u => (halone u).1)
        (counts_of_not_inDisconnect fun u => (halone u).2) (by simpa using hm)
    · intro s0 hne
      simp [hne.symm]
  | @connectFails t job s ht =>
    apply h.moveOnly s ht
    · intro c' hm
      exact (h s).connectFails (by simpa using hm)
    · intro s0 hne
      simp [hne.symm]
  | @connect t job s ht =>
    apply h.move ht
    · intro c' hm
      rw [weights_schedules] at hm
      refine (h s).connect ?_ (by simpa using hm)
      split <;> omega
    · intro s0 hne
      rw [weights_schedules_of_ne _ hne]
      simp [hne.symm]
    · intro s0 hne hist
      simp [History.note, hne.symm]
  | @beginDisconnect t job s ht hc halone =>
    apply h.moveOnly s ht
    · intro c' hm
      exact (h s).beginDisconnect (counts_of_not_inConnect halone) (by simpa using hm)
    · intro s0 hne
      simp [hne.symm]
  | @disconnectWaits t job s ht hr =>
    apply h.move ht
    · intro c' hm
      exact (h s).disconnectWaits hr (by simpa using hm)
    · intro s0 hne
      simp [hne.symm]
    · exact fun _ _ _ => rfl
  | @disconnect t job s ht hr =>
    apply h.move ht
    · intro c' hm
      exact (h s).disconnect hr (by simpa using hm)
    · intro s0 hne
      simp [hne.symm]
    · intro s0 hne hist
      simp [History.note, hne.symm]
  | spuriousDisconnect hw =>
    apply Books.silent h
    · rfl
    · exact fun s => SedaState.counts_congr (hw.map_eq weights_wakeDisconnect)
  | @disconnectWaitsAgain t job s ht hr =>
    apply h.moveOnly s ht
    · intro c' hm
      rw [hm.eq]
      exact h s
    · intro s0 hne
      rfl
  | @disconnectWoken t job s ht hr =>
    apply h.move ht
    · intro c' hm
      exact (h s).disconnectWoken hr (by simpa using hm)
    · intro s0 hne
      simp [hne.symm]
    · intro s0 hne hist
      simp [History.note, hne.symm]

end Books

/-! ## The threads of the pool -/

/-- The thread is counted by `n_idles_`. -/
def Place.idle : Place S E → ℕ
  | .waiting => 1
  | .woken => 1
  | _ => 0

/-- The threads of the pool. -/
structure Crew [Fintype T] (worker : T → Bool) (pool : Threadpool S) (threads : T → Place S E) :
    Prop where
  kind : ∀ t, (threads t).isWorker = worker t
  idle : pool.nIdles = total Place.idle threads
  /-- As long as there is work, some thread of the pool does not wait. -/
  awake : pool.runQueue ≠ [] → (∃ t, worker t = true) →
    ∃ t, worker t = true ∧ (threads t).isWaiting = false

namespace Crew

variable [Fintype T] {worker : T → Bool} {pool pool' : Threadpool S} {threads : T → Place S E}
  {places : T → Place S E} {t : T} {p p' : Place S E}

theorem isWaiting_of_idle (h : p.idle = 0) : p.isWaiting = false := by
  cases p <;> simp_all [Place.idle, Place.isWaiting]

/-- A thread that is woken is still counted as idle. -/
theorem idle_pos (h : Crew worker pool threads) (ht : threads t = .woken) : 0 < pool.nIdles := by
  have hle := le_total Place.idle threads t
  rw [ht, ← h.idle] at hle
  exact hle

variable [DecidableEq T]

/-- A thread goes to a place where it does not wait. -/
theorem move (h : Crew worker pool threads) (ht : threads t = p) (hk : p'.isWorker = p.isWorker)
    (hw : p'.isWaiting = false) (hn : pool'.nIdles + p.idle = pool.nIdles + p'.idle)
    (hq : pool'.runQueue ≠ [] → (∃ t, worker t = true) →
      p.isWorker = true ∨ ∃ t, worker t = true ∧ (threads t).isWaiting = false) :
    Crew worker pool' (Function.update threads t p') := by
  have hkind : p.isWorker = worker t := by
    rw [← ht]
    exact h.kind t
  refine ⟨fun u => ?_, ?_, fun hne hex => ?_⟩
  · obtain rfl | hu := eq_or_ne u t
    · rw [Function.update_self, hk, hkind]
    · rw [Function.update_of_ne hu]
      exact h.kind u
  · have htotal := total_update Place.idle threads t p'
    have hidle := h.idle
    rw [ht] at htotal
    omega
  · by_cases hp : p.isWorker = true
    · refine ⟨t, hkind.symm.trans hp, ?_⟩
      rw [Function.update_self]
      exact hw
    · obtain ⟨u, hu, huw⟩ := (hq hne hex).resolve_left hp
      refine ⟨u, hu, ?_⟩
      rw [Function.update_of_ne]
      · exact huw
      · rintro rfl
        exact hp (hkind.trans hu)

/-- A thread moves outside the pool's own code. -/
theorem moveUser (h : Crew worker pool threads) {job : Option (S × E)} {call call' : Call S}
    (ht : threads t = .user job call) :
    Crew worker pool (Function.update threads t (.user job call')) := by
  apply h.move ht
  · cases job <;> rfl
  · rfl
  · rfl
  · exact fun hne hex => .inr (h.awake hne hex)

/-- A thread begins to wait, which it does only when there is no work. -/
theorem wait (h : Crew worker pool threads) (ht : threads t = p) (hk : p.isWorker = true)
    (hn : pool'.nIdles + p.idle = pool.nIdles + 1) (hq : pool'.runQueue = []) :
    Crew worker pool' (Function.update threads t .waiting) := by
  refine ⟨fun u => ?_, ?_, fun hne => absurd hq hne⟩
  · obtain rfl | hu := eq_or_ne u t
    · rw [Function.update_self, ← h.kind u, ht, hk]
      rfl
    · rw [Function.update_of_ne hu]
      exact h.kind u
  · have htotal := total_update Place.idle threads t .waiting
    have hidle := h.idle
    rw [ht] at htotal
    simp only [Place.idle] at htotal hn
    omega

/-- A signal on `run_cond_` or a wake-up without one. -/
theorem woken (h : Crew worker pool threads) (hw : Woken wakeRun threads places) :
    Crew worker pool places ∧ ∃ t, worker t = true ∧ (places t).isWaiting = false := by
  obtain ⟨t, l, hl, rfl⟩ := hw
  obtain ⟨ht, rfl⟩ : threads t = .waiting ∧ l = .woken := by
    unfold wakeRun at hl
    split at hl
    · cases hl
      exact ⟨by assumption, rfl⟩
    · cases hl
  have hworker : worker t = true := by
    rw [← h.kind t, ht]
    rfl
  refine ⟨h.move ht rfl rfl rfl fun hne hex => .inr (h.awake hne hex), t, hworker, ?_⟩
  rw [Function.update_self]
  rfl

/-- A wake-up of a thread in `disconnect`. -/
theorem drained [DecidableEq S] {s : S} (h : Crew worker pool threads)
    (hw : Woken (wakeDisconnect s) threads places) : Crew worker pool places := by
  obtain ⟨t, l, hl, rfl⟩ := hw
  unfold wakeDisconnect at hl
  split at hl
  next job s' heq =>
    split at hl
    · cases hl
      exact h.moveUser heq
    · cases hl
  · cases hl

/-- `schedule` without a signal: the caller is a thread of the pool, or no thread is idle, or some
thread is up already. -/
theorem enqueue (h : Crew worker pool threads) {job : Option (S × E)} {call call' : Call S} {s : S}
    (ht : threads t = .user job call) (hs : pool.signals (threads t).isWorker = false) :
    Crew worker (pool.push s) (Function.update threads t (.user job call')) := by
  rw [ht] at hs
  apply h.move ht
  · cases job <;> rfl
  · rfl
  · rfl
  · intro _ hex
    obtain hboth | hidle : (pool.runQueue = [] ∧ (Place.user job call).isWorker = true) ∨
        pool.nIdles = 0 := by
      simpa [Threadpool.signals, or_iff_not_imp_left] using hs
    · exact .inl hboth.2
    · obtain ⟨u, hu⟩ := hex
      refine .inr ⟨u, hu, isWaiting_of_idle ?_⟩
      rw [h.idle, total_eq_zero_iff] at hidle
      exact hidle u

/-- `schedule` with a signal. -/
theorem enqueueSignal (h : Crew worker pool threads) {job : Option (S × E)} {call call' : Call S}
    {s : S} (ht : threads t = .user job call) (hw : Signals wakeRun threads places) :
    Crew worker (pool.push s) (Function.update places t (.user job call')) := by
  have hplace : places t = .user job call := (hw.apply_eq (by rw [ht]; rfl)).trans ht
  have hup : Crew worker pool places ∧ ((∃ t, worker t = true) →
      ∃ t, worker t = true ∧ (places t).isWaiting = false) := by
    obtain hw | ⟨hnone, rfl⟩ := hw
    · exact ⟨(h.woken hw).1, fun _ => (h.woken hw).2⟩
    · refine ⟨h, fun ⟨u, hu⟩ => ⟨u, hu, ?_⟩⟩
      have hu' := hnone u
      cases hplace : places u <;> simp_all [wakeRun, Place.isWaiting]
  apply hup.1.move hplace
  · cases job <;> rfl
  · rfl
  · rfl
  · exact fun _ hex => .inr (hup.2 hex)

end Crew

section Steps

variable [Fintype T] [DecidableEq S] [DecidableEq T] {worker : T → Bool} {σ σ' : SedaState S E T}
  {l : Label S E}

/-- Every section keeps the threads of the pool in order. -/
theorem crew_step (h : Crew worker σ.pool σ.threads) (hs : Step σ l σ') :
    Crew worker σ'.pool σ'.threads := by
  cases hs with
  | abort => exact h
  | setPool => exact h
  | addEvent => exact h
  | addScheduled ht => exact h.moveUser ht
  | schedule ht => exact h.moveUser ht
  | enqueue ht hs => exact h.enqueue ht hs
  | enqueueSignal ht hs hw => exact h.enqueueSignal ht hw
  | wait ht hq => exact h.wait ht rfl rfl hq
  | fetch ht hq => exact h.move ht rfl rfl rfl fun _ _ => .inl rfl
  | spuriousRun hw => exact (h.woken hw).1
  | waitAgain ht hq =>
    have hpos := h.idle_pos ht
    refine h.wait ht rfl ?_ hq
    simp only [SedaState.move, Place.idle]
    omega
  | fetchWoken ht hq =>
    have hpos := h.idle_pos ht
    refine h.move ht rfl rfl ?_ fun _ _ => .inl rfl
    simp only [SedaState.move, Place.idle]
    omega
  | removeEvent ht hq => exact h.move ht rfl rfl rfl fun _ _ => .inl rfl
  | releaseEvent ht hd => exact h.move ht rfl rfl rfl fun _ _ => .inl rfl
  | @releaseSignal t s event places ht hd hw =>
    have hplaces : Crew worker σ.pool places := by
      obtain hw | ⟨-, rfl⟩ := hw
      · exact h.drained hw
      · exact h
    have hplace : places t = .user (some (s, event)) .idle :=
      (hw.apply_eq (by rw [ht]; rfl)).trans ht
    exact hplaces.move hplace rfl rfl rfl fun _ _ => .inl rfl
  | beginConnect ht => exact h.moveUser ht
  | connectFails ht => exact h.moveUser ht
  | connect ht => exact h.moveUser ht
  | beginDisconnect ht => exact h.moveUser ht
  | disconnectWaits ht => exact h.moveUser ht
  | disconnect ht => exact h.moveUser ht
  | spuriousDisconnect hw => exact h.drained hw
  | disconnectWaitsAgain ht => exact h.moveUser ht
  | disconnectWoken ht => exact h.moveUser ht

end Steps

/-! ## Every run -/

section Main

variable [Fintype T] [DecidableEq S]

/-- What a run of stages and threads of one pool guarantees. -/
structure NothingLost (worker : T → Bool) (tr : List (Label S E)) (σ : SedaState S E T) : Prop where
  /-- No assert of `add_event`, `schedule` or `remove_event` has failed. -/
  failed : σ.failed = false
  /-- Each stage's events are taken in the order in which they were added, each at most once. -/
  order : ∀ s, (history s tr).added.map Prod.fst = (history s tr).taken ++ (σ.stages s).eventList
  /-- `event_ref_` counts the events added or found by `connect` and not yet released. -/
  refs : ∀ s, (σ.stages s).eventRef + (history s tr).released = (history s tr).acquired
  /-- When `disconnect` has returned, no event is outstanding. -/
  disconnected : ∀ s, (history s tr).closed = true →
    (σ.stages s).connected = false ∧ (σ.stages s).eventRef = 0
  /-- What is left in the queue then was added while the stage was not connected. -/
  leftover : ∀ s, (history s tr).closed = true →
    ∀ x ∈ (history s tr).added.drop (history s tr).taken.length, x.2 = false
  /-- While there is work, the threads of the pool do not all wait for a signal. -/
  awake : σ.pool.runQueue ≠ [] → (∃ t, worker t = true) →
    ∃ t, worker t = true ∧ (σ.threads t).isWaiting = false

/-- The invariant of the whole system. -/
structure SedaInv (worker : T → Bool) (tr : List (Label S E)) (σ : SedaState S E T) : Prop where
  failed : σ.failed = false
  books : Books σ tr
  crew : Crew worker σ.pool σ.threads

variable {worker : T → Bool} {σ σ' : SedaState S E T} {tr : List (Label S E)} {l : Label S E}

theorem sedaInv_init : SedaInv worker [] (SedaState.init worker : SedaState S E T) := by
  have hweights : ∀ s t, ((SedaState.init worker : SedaState S E T).threads t).weights s =
      ⟨0, 0, 0, 0, 0, 0⟩ := by
    intro s t
    simp only [SedaState.init]
    split <;> rfl
  refine ⟨rfl, fun s => ?_, fun t => ?_, ?_, fun hne => absurd rfl hne⟩
  · have hcounts : (SedaState.init worker : SedaState S E T).counts s = ⟨0, 0, 0, 0, 0, 0⟩ := by
      simp only [SedaState.counts, total, hweights, Finset.sum_const_zero]
      rfl
    rw [hcounts]
    constructor <;> simp [SedaState.init, Stage.init, history, History.empty]
  · simp only [SedaState.init]
    cases worker t <;> rfl
  · refine ((total_eq_zero_iff _ _).2 fun t => ?_).symm
    simp only [SedaState.init]
    split <;> rfl

variable [DecidableEq T]

theorem SedaInv.step (h : SedaInv worker tr σ) (hs : Step σ l σ') :
    SedaInv worker (tr ++ [l]) σ' := by
  refine ⟨?_, books_step h.books hs, crew_step h.crew hs⟩
  cases hs with
  | abort ha => exact absurd ha h.books.not_aborts
  | _ => exact h.failed

theorem SedaInv.run (hr : Runs Step (SedaState.init worker : SedaState S E T) tr σ) :
    SedaInv worker tr σ :=
  hr.inv sedaInv_init fun _ _ _ _ => SedaInv.step

/-- **Stage queues lose nothing.** This holds after every run of any number of stages and threads,
in every interleaving of their sections. -/
theorem stage_queues_lose_nothing
    (hr : Runs Step (SedaState.init worker : SedaState S E T) tr σ) : NothingLost worker tr σ := by
  have h := SedaInv.run hr
  refine ⟨h.failed, fun s => (h.books s).order, fun s => (h.books s).acquired,
    fun s => (h.books s).closed, fun s hclosed => ?_, h.crew.awake⟩
  -- without outstanding events no token is left, so all that is left lies beyond the tokens
  have htokens : (σ.counts s).tokens = 0 := by
    have hrefs := (h.books s).refs
    rw [((h.books s).closed hclosed).2] at hrefs
    omega
  have hwaiting := (h.books s).waiting
  rw [htokens] at hwaiting
  exact hwaiting

end Main

/-- One stage and two threads, of which one is of the pool: the stage is connected, handles the
event 7 and is disconnected. -/
theorem stage_queues_lose_nothing_run : ∃ (tr : List (Label Unit ℕ)) (σ : SedaState Unit ℕ Bool),
    (history () tr).added = [(7, true)] ∧ (history () tr).closed = true ∧
      NothingLost (fun t => t) tr σ := by
  have h0 : Runs Step (SedaState.init fun t => t : SedaState Unit ℕ Bool) [] _ := .start
  have h1 := h0.next (.setPool (t := false) (s := ()) rfl rfl)
  have h2 := h1.next (.beginConnect (t := false) (s := ()) rfl rfl rfl (by decide))
  have h3 := h2.next (.connect (t := false) (s := ()) rfl)
  have h4 := h3.next (.addScheduled (t := false) (s := ()) (e := 7) rfl rfl rfl)
  have h5 := h4.next (.schedule (t := false) (s := ()) rfl rfl rfl)
  have h6 := h5.next (.enqueue (t := false) (s := ()) rfl rfl)
  have h7 := h6.next (.fetch (t := true) (s := ()) rfl rfl)
  have h8 := h7.next (.removeEvent (t := true) (s := ()) rfl rfl)
  have h9 := h8.next (.releaseEvent (t := true) (s := ()) rfl rfl)
  have h10 := h9.next (.beginDisconnect (t := false) (s := ()) rfl rfl (by decide))
  have h11 := h10.next (.disconnect (t := false) (s := ()) rfl rfl)
  exact ⟨_, _, by decide, by decide, stage_queues_lose_nothing h11⟩

end Miniob.Common.Seda
