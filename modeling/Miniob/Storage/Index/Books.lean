import Miniob.Storage.BufferPool.Eviction
import Miniob.Storage.Index.Exec

/-!
# Programs and their books

Going through a program of the tree handler call by call, with an invariant of the books that the
pool keeps about it. `Follows I L header s x Q`: started with books for which `I L` holds, the
program `x` ends with books for which `I L'` holds for an `L'` with `Q`. The rules below hold for
any invariant `I`; what the calls on the pool do to the books is left to the invariant.

* `Follows.bind`: sequencing, with the state of the flat run for programs whose books depend on what
  they read.
* `Follows.step`: a call whose effect on the books is known.
-/

namespace Miniob.Storage.Index

open Miniob.Lib
open Miniob.Storage.BufferPool (PoolCall FlatPool flat tracked Marks run_tracked_flat)

variable {K α β ι : Type} {I : ι → Marks → Prop} {L : ι} {header : IndexFileHeader}
  {s : FlatPool (IndexPage K)} {p : Int}

/-- The program keeps the books in order. -/
def Follows (I : ι → Marks → Prop) (L : ι) (header : IndexFileHeader) (s : FlatPool (IndexPage K))
    (x : TreeM K α) (Q : α → ι → Prop) : Prop :=
  ∀ t : Marks, I L t → ∀ a header' s' t',
    exec tracked x header (s, t) = some ((a, header'), (s', t')) → ∃ L', I L' t' ∧ Q a L'

/-- Keeping books does not change a run. -/
theorem exec_flat_of_tracked {x : TreeM K α} {t : Marks} {a : α} {header' : IndexFileHeader}
    {s' : FlatPool (IndexPage K)} {t' : Marks}
    (h : exec tracked x header (s, t) = some ((a, header'), (s', t'))) :
    exec flat x header s = some ((a, header'), s') := by
  have hflat := run_tracked_flat (x.run header) s t
  unfold exec at h ⊢
  rw [h] at hflat
  exact hflat.symm

/-- A run can be done with books. -/
theorem exec_tracked_of_flat {x : TreeM K α} (t : Marks) {a : α} {header' : IndexFileHeader}
    {s' : FlatPool (IndexPage K)} (h : exec flat x header s = some ((a, header'), s')) :
    ∃ t', exec tracked x header (s, t) = some ((a, header'), (s', t')) := by
  have hflat := run_tracked_flat (x.run header) s t
  unfold exec at h ⊢
  rw [h] at hflat
  obtain ⟨⟨a', s₁, t'⟩, hrun, heq⟩ := Option.map_eq_some_iff.mp hflat
  simp only [Prod.mk.injEq] at heq
  obtain ⟨rfl, rfl⟩ := heq
  exact ⟨t', hrun⟩

/-! ## Sequencing -/

section sequencing

variable {x : TreeM K α} {f : α → TreeM K β} {Q : β → ι → Prop} {R : α → ι → Prop}

theorem Follows.bind (hx : Follows I L header s x R)
    (hf : ∀ a header' s' L', exec flat x header s = some ((a, header'), s') → R a L' →
      Follows I L' header' s' (f a) Q) : Follows I L header s (x >>= f) Q := by
  intro t ht b header'' s'' t'' hrun
  rw [exec_bind] at hrun
  rcases hx' : exec tracked x header (s, t) with _ | ⟨⟨a, header'⟩, s', t'⟩
  · rw [hx'] at hrun
    cases hrun
  · rw [hx', andThen_some] at hrun
    obtain ⟨L', hL', hR⟩ := hx t ht a header' s' t' hx'
    exact hf a header' s' L' (exec_flat_of_tracked hx') hR t' hL' b header'' s'' t'' hrun

theorem Follows.mono {Q' : α → ι → Prop} (hx : Follows I L header s x R)
    (h : ∀ a L', R a L' → Q' a L') : Follows I L header s x Q' := by
  intro t ht a header' s' t' hrun
  obtain ⟨L', hL', hR⟩ := hx t ht a header' s' t' hrun
  exact ⟨L', hL', h a L' hR⟩

theorem Follows.pure {a : α} (h : R a L) : Follows I L header s (pure a : TreeM K α) R := by
  intro t ht b header' s' t' hrun
  rw [exec_pure, Option.some.injEq, Prod.mk.injEq, Prod.mk.injEq, Prod.mk.injEq] at hrun
  obtain ⟨⟨rfl, -⟩, -, rfl⟩ := hrun
  exact ⟨L, ht, h⟩

theorem Follows.fail : Follows I L header s (TreeM.fail : TreeM K α) R := by
  intro t ht b header' s' t' hrun
  rw [exec_fail] at hrun
  cases hrun

theorem Follows.ite {c : Prop} [Decidable c] {y : TreeM K α} (hx : c → Follows I L header s x R)
    (hy : ¬ c → Follows I L header s y R) : Follows I L header s (if c then x else y) R := by
  split
  case isTrue h => exact hx h
  case isFalse h => exact hy h

/-- The books may be read in another way. -/
theorem Follows.weaken {L' : ι} (h : ∀ t, I L t → I L' t) (hx : Follows I L' header s x R) :
    Follows I L header s x R :=
  fun t ht => hx t (h t ht)

/-- A call that has not failed. -/
theorem Follows.ok {y : TreeM K α} (hy : Follows I L header s y R) :
    Follows I L header s (if RC.success ≠ RC.success then x else y) R :=
  Follows.ite (fun h => absurd rfl h) fun _ => hy

/-- A call whose effect on the books is known. -/
theorem Follows.step {L' : ι} {a : α} {header' : IndexFileHeader} {s' : FlatPool (IndexPage K)}
    (t' : Marks → Marks)
    (hx : ∀ t, exec tracked x header (s, t) = some ((a, header'), (s', t' t)))
    (hL : ∀ t : Marks, I L t → I L' (t' t)) (hf : Follows I L' header' s' (f a) Q) :
    Follows I L header s (x >>= f) Q := by
  intro t ht b header'' s'' t'' hrun
  rw [exec_bind, hx, andThen_some] at hrun
  exact hf (t' t) (hL t ht) b header'' s'' t'' hrun

theorem Follows.assert {b : Bool} {f : Unit → TreeM K β} (hf : Follows I L header s (f ()) Q) :
    Follows I L header s (TreeM.assert b >>= f) Q := by
  cases b with
  | true => exact Follows.step id (fun _ => rfl) (fun _ h => h) hf
  | false =>
      intro t ht b header' s' t' hrun
      rw [exec_bind] at hrun
      cases hrun

theorem Follows.assertSome {o : Option α}
    (hf : ∀ a, o = some a → Follows I L header s (f a) Q) :
    Follows I L header s (TreeM.assertSome o >>= f) Q := by
  cases o with
  | some a => exact Follows.step id (fun _ => rfl) (fun _ h => h) (hf a rfl)
  | none =>
      intro t ht b header' s' t' hrun
      rw [exec_bind] at hrun
      cases hrun

theorem Follows.get {f : IndexFileHeader → TreeM K β} (hf : Follows I L header s (f header) Q) :
    Follows I L header s (get >>= f) Q :=
  Follows.step id (fun _ => rfl) (fun _ h => h) hf

theorem Follows.modify {g : IndexFileHeader → IndexFileHeader} {f : Unit → TreeM K β}
    (hf : Follows I L (g header) s (f ()) Q) : Follows I L header s (modify g >>= f) Q :=
  Follows.step id (fun _ => rfl) (fun _ h => h) hf

theorem Follows.set {h : IndexFileHeader} {f : PUnit → TreeM K β}
    (hf : Follows I L h s (f ⟨⟩) Q) : Follows I L header s (set h >>= f) Q :=
  Follows.step id (fun _ => rfl) (fun _ h => h) hf

end sequencing

/-! ## Reading nodes -/

section reading

variable {Q : β → ι → Prop}

theorem Follows.page {f : IndexPage K → TreeM K β} (hf : Follows I L header s (f (s.page p)) Q) :
    Follows I L header s (page p >>= f) Q :=
  Follows.step id (fun _ => rfl) (fun _ h => h) hf

theorem Follows.leafNode {f : LeafIndexNode K → TreeM K β}
    (hf : ∀ n, s.page p = .leaf n → Follows I L header s (f n) Q) :
    Follows I L header s (leafNode p >>= f) Q := by
  unfold Index.leafNode
  rw [bind_assoc]
  refine Follows.page ?_
  cases hn : s.page p with
  | leaf n => exact hf n hn
  | header _ => exact Follows.fail
  | internal _ => exact Follows.fail

theorem Follows.internalNode {f : InternalIndexNode K → TreeM K β}
    (hf : ∀ n, s.page p = .internal n → Follows I L header s (f n) Q) :
    Follows I L header s (internalNode p >>= f) Q := by
  unfold Index.internalNode
  rw [bind_assoc]
  refine Follows.page ?_
  cases hn : s.page p with
  | internal n => exact hf n hn
  | header _ => exact Follows.fail
  | leaf _ => exact Follows.fail

theorem Follows.keyAt {index : ℕ} {f : K → TreeM K β}
    (hf : ∀ k, (s.page p).keyAt? index = some k → Follows I L header s (f k) Q) :
    Follows I L header s (keyAt p index >>= f) Q := by
  unfold Index.keyAt
  rw [bind_assoc]
  exact Follows.page (Follows.assertSome hf)

theorem Follows.valueAt {n : InternalIndexNode K} {index : ℕ} {f : Int → TreeM K β}
    (hf : ∀ e, n.items[index]? = some e → Follows I L header s (f e.2) Q) :
    Follows I L header s (valueAt n index >>= f) Q := by
  unfold Index.valueAt
  refine Follows.assertSome fun c hc => ?_
  obtain ⟨e, he, rfl⟩ := Option.map_eq_some_iff.mp hc
  exact hf e he

end reading

end Miniob.Storage.Index
