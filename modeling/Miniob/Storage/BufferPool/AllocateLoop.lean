import Miniob.Storage.BufferPool.FrameKeys

/-!
# The loop of `allocate_frame`

A turn of the loop returns, or it writes its victim and frees it under the key that the frame
carries. While the frames carry their keys a turn that does not return takes one frame out of the
table, so that the loop ends.

* `LoopEnds`: what the pools promise of the loop.
* `FaultyStore.Turned`: what one turn does.
* `loopEnds_of_keyed`: the loop ends if the frames are keyed. It fails to return only when it calls
  a pool that has been deleted.
-/

namespace Miniob.Storage.DiskBufferPool

open Miniob.Storage.BufferPool

variable {F D : Type} [DecidableEq F] [Inhabited D]

/-- What a call keeps that hands nothing out. -/
structure Keeps (returned : List (F × ℕ)) (pins : ℕ → ℕ) (w w' : FaultyStore F D) : Prop where
  keyed : Keyed returned pins w'.store
  manager : w'.store.manager = w.store.manager

omit [DecidableEq F] [Inhabited D] in
theorem Keeps.trans {returned : List (F × ℕ)} {pins pins' : ℕ → ℕ} {w w' w'' : FaultyStore F D}
    (h : Keeps returned pins w w') (h' : Keeps returned pins' w' w'') :
    Keeps returned pins' w w'' :=
  ⟨h'.keyed, h'.manager.trans h.manager⟩

/-- A frame that has been allocated: from the pools `s` with a free frame `f`, which is put under
the key. -/
structure Granted (returned : List (F × ℕ)) (pins : ℕ → ℕ) (w : FaultyStore F D) (key : FrameId)
    (f : ℕ) (s : Store F D) (frees : List ℕ) (w' : FaultyStore F D) : Prop where
  keyed : Keyed returned pins s
  manager : s.manager = w.store.manager
  free : s.frameManager.frees = f :: frees
  fresh : ∀ e ∈ s.entries, e.1 ≠ key
  eq : w'.store = { s with
    frameManager := { s.frameManager with
      frames := (key, f) :: s.frameManager.frames
      frees := frees } }

namespace FaultyStore

/-- The loop goes on for `k` turns. -/
def GoesOn (key : FrameId) : ℕ → FaultyStore F D → FaultyStore F D → Prop
  | 0, w, w' => w' = w
  | k + 1, w, w' => ∃ w₁, w.allocateTurn key = some (.inr w₁) ∧ GoesOn key k w₁ w'

/-- The map by descriptor leads to a pool that has been deleted. -/
def DeletedPool (w : FaultyStore F D) : Prop :=
  ∃ fd id, w.store.manager.fdBufferPools fd = some id ∧ w.store.openPool id = none

/-- **The loop ends.** -/
structure LoopEnds (w : FaultyStore F D) (key : FrameId) : Prop where
  /-- A turn that does not return takes one frame out of the table. -/
  turn : ∀ k w' w'', GoesOn key k w w' → w'.allocateTurn key = some (.inr w'') →
    w''.store.entries.length + 1 = w'.store.entries.length
  /-- So there are no more turns than frames in the table. -/
  turns : ∀ k w', GoesOn key k w w' → k ≤ w.store.entries.length
  /-- The loop returns, unless it calls a pool that has been deleted. -/
  returns : ¬ w.DeletedPool → ∃ r, w.allocateFrame w.store.allocateFuel key = some r

variable {returned : List (F × ℕ)} {pins : ℕ → ℕ} {w w' : FaultyStore F D} {e : FrameId × ℕ}
  {key : FrameId} {id f page : ℕ} {pool : PoolObject F} {hd : FileHeader} {name : F} {fails : Bool}
  {io : Faults}

omit [DecidableEq F] [Inhabited D] in
theorem keeps_refl (h : Keyed returned pins w.store) : Keeps returned pins w w := ⟨h, rfl⟩

omit [DecidableEq F] [Inhabited D] in
/-- Looking an entry up. -/
theorem keeps_touch (h : Keyed returned pins w.store) (he : e ∈ w.store.entries) :
    Keeps returned pins w (w.withFrames (w.store.frameManager.touch e)) :=
  ⟨h.touch he, rfl⟩

/-! ## Writing frames -/

/-- A frame is written to the file of a pool, its own if it holds a header. -/
theorem flushPage_keeps (h : Keyed returned pins w.store) (he : e ∈ w.store.entries)
    (hzero : e.1.pageNum = 0 → w.store.hdrFrame id = e.2) :
    Defined False (w.flushPage id e.2) fun r => Keeps returned pins w r.2 ∧
      r.2.store.entries = w.store.entries ∧ r.2.store.hdrFrame = w.store.hdrFrame := by
  unfold flushPage Store.flushPage
  cases hpool : w.store.openPool id with
  | none => exact Defined.none
  | some pool =>
    simp only [Option.bind_eq_bind, Option.bind_some]
    split
    · exact Defined.some ⟨⟨h, rfl⟩, rfl, rfl⟩
    · have hopen := openPool_eq_some.mp hpool
      have hpage : (w.store.frame e.2).page.pageNum = 0 →
          ∃ hd, (w.store.frame e.2).page.data = .header hd ∧
            hd.Backed returned pool.fileName := by
        intro hnum
        rw [← hzero ((h.labels e he).2.symm.trans hnum)]
        exact h.header_data hopen
      have hwritten := h.write _ (h.stored hopen) hpage
      refine Defined.some ⟨⟨?_, rfl⟩, rfl, rfl⟩
      exact hwritten.setPins he rfl rfl (h.pinned e he) (fun _ _ => rfl) (h.clients e he)

/-- A victim is written by the pool that the map leads to. -/
theorem managerFlushPage_keeps (h : Keyed returned pins w.store) (he : e ∈ w.store.entries)
    (hpin : (w.store.frame e.2).pinCount = 0) :
    Defined False (w.managerFlushPage e.2) fun r => Keeps returned pins w r.2 ∧
      r.2.store.entries = w.store.entries := by
  unfold managerFlushPage
  split
  · exact Defined.some ⟨keeps_refl h, rfl⟩
  · exact (flushPage_keeps h he fun hz => absurd hz (h.pageNum_ne_zero he hpin)).mono
      fun r hr => ⟨hr.1, hr.2.1⟩

/-- Writing and freeing the victim takes it out of the table. -/
theorem freeFrame_keeps (h : Keyed returned pins w.store) (he : e ∈ w.store.entries)
    (hpin : (w.store.frame e.2).pinCount = 0) :
    Defined False (w.freeFrame e.2) fun r => Keeps returned pins w r.2 ∧
      (r.1 = .success → r.2.store.entries.length + 1 = w.store.entries.length) := by
  have hclean : Defined False (w.cleanFrame e.2) fun r => Keeps returned pins w r.2 ∧
      r.2.store.entries = w.store.entries := by
    unfold cleanFrame
    split
    · exact managerFlushPage_keeps h he hpin
    · exact Defined.some ⟨keeps_refl h, rfl⟩
  refine hclean.bind ?_
  rintro ⟨rc, w₁⟩ ⟨hkeeps, hentries⟩
  by_cases hrc : rc = .success
  · have he₁ : e ∈ w₁.store.entries := hentries ▸ he
    have hlabel := hkeeps.keyed.labels e he₁
    have hpin₁ : (w₁.store.frame e.2).pinCount = 0 := by
      rw [hkeeps.keyed.pinned e he₁, ← h.pinned e he]
      exact hpin
    have hkey : (⟨(w₁.store.frame e.2).fileDesc, (w₁.store.frame e.2).page.pageNum⟩ : FrameId) =
        e.1 := by
      rw [hlabel.1, hlabel.2]
    simp only [hrc, ne_eq, not_true, if_false, hkey, hkeeps.keyed.table.free_eq he₁]
    refine Defined.some ⟨⟨hkeeps.keyed.remove he₁ hpin₁, hkeeps.manager⟩, fun _ => ?_⟩
    rw [← hentries]
    exact List.length_erase_add_one he₁
  · simp only [ne_eq, hrc, not_false_eq_true, if_true]
    exact Defined.some ⟨hkeeps, fun hs => absurd hs hrc⟩

/-! ## The loop -/

/-- What a turn does: it returns a frame or an error, or takes one frame out of the table. -/
def Turned (returned : List (F × ℕ)) (pins : ℕ → ℕ) (w : FaultyStore F D) (key : FrameId) :
    (Except RC ℕ × FaultyStore F D) ⊕ FaultyStore F D → Prop
  | .inl (.ok f, w') => ∃ s frees, Granted returned pins w key f s frees w'
  | .inl (.error rc, w') => rc ≠ .success ∧ Keeps returned pins w w'
  | .inr w' => Keeps returned pins w w' ∧
      w'.store.entries.length + 1 = w.store.entries.length

/-- A turn that gets no frame. -/
theorem purge_turned {w₀ : FaultyStore F D}
    (hkeeps : Keeps returned pins w w₀)
    (hlen : w₀.store.entries.length = w.store.entries.length) :
    Defined False (match w₀.store.frameManager.beginPurge with
      | none => some (.inl (.error .nomem, w₀))
      | some f => (w₀.freeFrame f).map fun (rc, w) =>
          if rc ≠ .success then .inl (.error rc, w) else .inr w)
      (Turned returned pins w key) := by
  cases hpurge : w₀.store.frameManager.beginPurge with
  | none => exact Defined.some ⟨nofun, hkeeps⟩
  | some f =>
    obtain ⟨e, he, rfl, hpin⟩ := exists_of_beginPurge hpurge
    refine (freeFrame_keeps hkeeps.keyed he hpin).map ?_
    rintro ⟨rc, w'⟩ ⟨hkeeps', hless⟩
    by_cases hrc : rc = .success
    · simp only [hrc, ne_eq, not_true, if_false]
      exact ⟨hkeeps.trans hkeeps', (hless hrc).trans hlen⟩
    · simp only [ne_eq, hrc, not_false_eq_true, if_true]
      exact ⟨hrc, hkeeps.trans hkeeps'⟩

/-- One turn of the loop. -/
theorem allocateTurn_turned (h : Keyed returned pins w.store) :
    Defined False (w.allocateTurn key) (Turned returned pins w key) := by
  unfold allocateTurn
  rcases w.store.frameManager.alloc_cases key with ⟨e, he, halloc⟩ | halloc |
    ⟨f, frees, hfrees, hfresh, halloc⟩
  · simp only [halloc]
    exact purge_turned (keeps_touch h he) (FrameManager.perm_touch he).length_eq
  · simp only [halloc]
    exact purge_turned (keeps_refl h) rfl
  · simp only [halloc]
    exact Defined.some ⟨w.store, frees, h, rfl, hfrees, hfresh, rfl⟩

/-- The loop as a whole. -/
theorem allocateFrame_turned {fuel : ℕ} (h : Keyed returned pins w.store) :
    Defined False (w.allocateFrame fuel key) fun r => Turned returned pins w key (.inl r) := by
  induction fuel generalizing w with
  | zero => exact Defined.none
  | succ fuel ih =>
    refine (allocateTurn_turned h).bind fun turn hturn => ?_
    match turn, hturn with
    | .inl r, hdone => exact Defined.some hdone
    | .inr w₁, ⟨hkeeps, _⟩ =>
      refine (ih hkeeps.keyed).mono ?_
      rintro ⟨rc | f, w'⟩ hrest
      · exact ⟨hrest.1, hkeeps.trans hrest.2⟩
      · obtain ⟨s, frees, hgranted⟩ := hrest
        exact ⟨s, frees, { hgranted with manager := hgranted.manager.trans hkeeps.manager }⟩

/-- The frames are keyed in every turn. -/
theorem goesOn_keeps {k : ℕ} (h : Keyed returned pins w.store) (hgoes : GoesOn key k w w') :
    Keeps returned pins w w' ∧ w'.store.entries.length + k = w.store.entries.length := by
  induction k generalizing w with
  | zero =>
    obtain rfl : w' = w := hgoes
    exact ⟨keeps_refl h, rfl⟩
  | succ k ih =>
    obtain ⟨w₁, hturn, hrest⟩ := hgoes
    obtain ⟨hkeeps, hlen⟩ := (allocateTurn_turned h).of_eq_some hturn
    obtain ⟨hkeeps', hlen'⟩ := ih hkeeps.keyed hrest
    exact ⟨hkeeps.trans hkeeps', by omega⟩

/-- Only a pool that has been deleted keeps a turn from ending. -/
theorem allocateTurn_isSome (key : FrameId) (hno : ¬ w.DeletedPool) :
    ∃ turn, w.allocateTurn key = some turn := by
  have hflush : ∀ (s : FrameManager D) f, ∃ r, (w.withFrames s).freeFrame f = some r := by
    intro s f
    have hclean : ∃ r, (w.withFrames s).cleanFrame f = some r := by
      unfold cleanFrame
      split
      · unfold managerFlushPage
        split
        · exact ⟨_, rfl⟩
        · rename_i id hid
          cases hpool : w.store.openPool id with
          | none => exact absurd ⟨_, id, hid, hpool⟩ hno
          | some pool =>
            have hpool : (w.withFrames s).store.openPool id = some pool := hpool
            unfold flushPage Store.flushPage
            rw [hpool]
            simp only [Option.bind_eq_bind, Option.bind_some]
            split
            · exact ⟨_, rfl⟩
            · exact ⟨_, rfl⟩
      · exact ⟨_, rfl⟩
    obtain ⟨⟨rc, w'⟩, hclean⟩ := hclean
    unfold freeFrame
    rw [hclean]
    simp only [Option.bind_eq_bind, Option.bind_some]
    split
    · exact ⟨_, rfl⟩
    · exact ⟨_, rfl⟩
  unfold allocateTurn
  split
  · exact ⟨_, rfl⟩
  · rename_i fm _
    dsimp only
    split
    · exact ⟨_, rfl⟩
    · rename_i f _
      obtain ⟨r, hr⟩ := hflush fm f
      rw [hr]
      exact ⟨_, rfl⟩

/-- There is fuel for as many turns as frames are in the table, and one more. -/
theorem allocateFrame_isSome {fuel : ℕ} (h : Keyed returned pins w.store)
    (hno : ¬ w.DeletedPool) (hfuel : w.store.entries.length < fuel) :
    ∃ r, w.allocateFrame fuel key = some r := by
  induction fuel generalizing w with
  | zero => omega
  | succ fuel ih =>
    obtain ⟨turn, hturn⟩ := allocateTurn_isSome key hno
    unfold allocateFrame
    rw [hturn]
    match turn, (allocateTurn_turned h).of_eq_some hturn with
    | .inl r, _ => exact ⟨r, rfl⟩
    | .inr w₁, ⟨hkeeps, hlen⟩ =>
      refine ih hkeeps.keyed ?_ (by omega)
      rintro ⟨fd, id, hfd, hpool⟩
      refine hno ⟨fd, id, hkeeps.manager ▸ hfd, ?_⟩
      unfold Store.openPool at hpool ⊢
      rwa [hkeeps.manager] at hpool

/-- **While the frames carry their keys, the loop ends.** -/
theorem loopEnds_of_keyed (h : Keyed returned pins w.store) : w.LoopEnds key where
  turn k w' w'' hgoes hturn :=
    ((allocateTurn_turned (goesOn_keeps h hgoes).1.keyed).of_eq_some hturn).2
  turns k w' hgoes := by
    have := (goesOn_keeps h hgoes).2
    omega
  returns hno := allocateFrame_isSome h hno (Nat.lt_succ_self _)

end FaultyStore

end Miniob.Storage.DiskBufferPool
