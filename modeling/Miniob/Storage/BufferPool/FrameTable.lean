import Miniob.Storage.BufferPool.Faults
import Miniob.Storage.BufferPool.PoolCalls

/-!
# Changes of the frame table

No two entries of the frame table share a page or a frame, and no frame in use is free.

* `FrameManager.Table.touch`, `.take`, `.give`: what `get`, `alloc` and `free` of `BPFrameManager` do
  to the entries keeps this.
* `FrameManager.free_cases`: what `free` does.
-/

namespace Miniob.Storage.DiskBufferPool

open Miniob.Storage.BufferPool

variable {F D : Type}

/-- A call that need not return. -/
theorem Defined.none {α : Type} {Q : α → Prop} : Defined False (none : Option α) Q :=
  Or.inr ⟨rfl, not_false⟩

/-- A result is what the call returns. -/
theorem Defined.self {α : Type} (x : Option α) : Defined False x (x = Option.some ·) := by
  cases x with
  | none => exact Defined.none
  | some a => exact Defined.some rfl

namespace FrameManager

variable {fm : FrameManager D} {key : FrameId} {f : ℕ} {e : FrameId × ℕ}

/-- The order of the entries and of the free frames does not matter. -/
theorem Table.perm (h : fm.Table) {frame : ℕ → Frame D} {frames : List (FrameId × ℕ)}
    {frees : List ℕ} (hframes : frames.Perm fm.frames) (hfrees : frees.Perm fm.frees) :
    Table ⟨frame, frames, frees⟩ :=
  ⟨(hframes.map _).nodup_iff.mpr h.keys,
    ((hframes.map _).append hfrees).nodup_iff.mpr h.ids⟩

theorem Table.setFrame (h : fm.Table) (f : ℕ) (frame : Frame D) : (fm.setFrame f frame).Table :=
  h.perm (List.Perm.refl _) (List.Perm.refl _)

theorem Table.touch (h : fm.Table) (he : e ∈ fm.frames) : (fm.touch e).Table :=
  h.perm (perm_touch he) (List.Perm.refl _)

/-- A free frame is put under a key that has none. -/
theorem Table.take (h : fm.Table) {frees : List ℕ} (hfrees : fm.frees = f :: frees)
    (hfresh : ∀ e ∈ fm.frames, e.1 ≠ key) {frame : ℕ → Frame D} :
    Table ⟨frame, (key, f) :: fm.frames, frees⟩ := by
  refine ⟨?_, ?_⟩
  · refine List.nodup_cons.mpr ⟨fun hmem => ?_, h.keys⟩
    obtain ⟨e, he, hkey⟩ := List.mem_map.mp hmem
    exact hfresh e he hkey
  · have hids := h.ids
    rw [hfrees] at hids
    exact List.perm_middle.nodup_iff.mp hids

/-- The frame of an entry is given back. -/
theorem Table.give (h : fm.Table) (he : e ∈ fm.frames) :
    Table { fm with frames := fm.frames.erase e, frees := fm.frees ++ [e.2] } := by
  have hperm := List.perm_cons_erase he
  refine ⟨(h.keys.sublist (List.erase_sublist.map _)), ?_⟩
  have hids := ((hperm.map (·.2)).append_right fm.frees).nodup_iff.mp h.ids
  refine List.Perm.nodup_iff ?_ |>.mp hids
  rw [List.map_cons, ← List.append_assoc]
  exact (List.perm_append_singleton e.2 _).symm

/-- What `free` does: nothing, or it looks the page up, or it gives the frame back. -/
theorem free_cases (fm : FrameManager D) (key : FrameId) (f : ℕ) :
    (fm.free key f).2 = fm ∨ (∃ e ∈ fm.frames, e.1 = key ∧ (fm.free key f).2 = fm.touch e) ∨
      ∃ e ∈ fm.frames, e.1 = key ∧ e.2 = f ∧ (fm.free key f).2 =
        { fm with frames := fm.frames.erase e, frees := fm.frees ++ [e.2] } := by
  unfold FrameManager.free
  cases hfind : fm.find key with
  | none => exact Or.inl rfl
  | some e =>
    obtain ⟨he, hkey⟩ := find_eq_some hfind
    by_cases hf : f = e.2
    · refine Or.inr (Or.inr ⟨e, he, hkey, hf.symm, ?_⟩)
      subst hf
      simp
    · refine Or.inr (Or.inl ⟨e, he, hkey, ?_⟩)
      simp only [ne_eq, hf, not_false_eq_true, if_true]

end FrameManager

theorem table_init [Inhabited D] {used : List ℕ} {n : ℕ} {disk : F → List (Page D)} :
    (PoolState.init used n disk : PoolState F D).store.frameManager.Table :=
  ⟨List.nodup_nil, List.nodup_range⟩

end Miniob.Storage.DiskBufferPool
