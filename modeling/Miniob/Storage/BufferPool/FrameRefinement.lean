import Miniob.Storage.BufferPool.FramePool

/-!
# Frame managers as lists

`FrameManager` has the frames as a list, the frame used last in front. It is what the cache and the
memory pool of `BPFrameManager` represent.

* `Represents`: the list is that of the entries of the cache, and the free frames are those of the
  pool.
* `Represents.get`, `Represents.alloc`, `Represents.free`: the calls return the same and keep this.
* `Represents.beginPurge`, `Represents.findList`: so do the searches.
-/

namespace Miniob.Storage.DiskBufferPool

open Miniob.Lib Miniob.Common Miniob.Storage.BufferPool

namespace BPFrameManager

variable {D : Type} {size : ℕ} {m : BPFrameManager FrameId} {fm : FrameManager D} {key : FrameId}
  {e : Entry FrameId ℕ} {es : List (Entry FrameId ℕ)} {frees : List ℕ} {frame : ℕ → Frame D}

/-- The list of the entries. -/
def entryList (es : List (Entry FrameId ℕ)) : List (FrameId × ℕ) := es.map fun e => (e.key, e.value)

/-- The frame manager with the entries. -/
def ofEntries (frame : ℕ → Frame D) (es : List (Entry FrameId ℕ)) (frees : List ℕ) :
    FrameManager D :=
  ⟨frame, entryList es, frees⟩

/-- The list has the entries of the cache, in their order, and the pool has the free frames. -/
def Represents (size : ℕ) (m : BPFrameManager FrameId) (fm : FrameManager D) : Prop :=
  ∃ es frame, Books size m es ∧ fm = ofEntries frame es m.allocator.frees

/-! ## Entries of the list -/

theorem find_ofEntries : (ofEntries frame es frees).find key =
    (es.find? fun e => e.key = key).map fun e => (e.key, e.value) := by
  rw [FrameManager.find, ofEntries, entryList, List.find?_map]
  rfl

/-- The other entries. -/
theorem erase_entryList (h : (es.map Entry.key).Nodup) (he : e ∈ es) :
    (entryList es).erase (e.key, e.value) = entryList (others es e.key) := by
  obtain ⟨es₁, es₂, rfl⟩ := List.append_of_mem he
  have hnot : (e.key, e.value) ∉ entryList es₁ := by
    intro hmem
    obtain ⟨e', he', heq⟩ := List.mem_map.mp hmem
    exact key_ne_of_split h e' (List.mem_append_left _ he') (Prod.ext_iff.mp heq).1
  unfold entryList at hnot ⊢
  rw [others_split h, List.map_append, List.map_cons, List.erase_append_right _ hnot,
    List.erase_cons_head, List.map_append]

/-- The entry of a key comes to the front. -/
theorem touch_ofEntries (h : (es.map Entry.key).Nodup)
    (hfind : (es.find? fun e => e.key = key) = some e) :
    (ofEntries frame es frees).touch (e.key, e.value) =
      ofEntries frame (recencyStep es (.get key)) frees := by
  rw [FrameManager.touch, ofEntries, erase_entryList h (List.mem_of_find?_eq_some hfind), recencyStep,
    hfind]
  rfl

/-- The entry of a key is found, or there is none. -/
theorem find_cases (es : List (Entry FrameId ℕ)) (key : FrameId) :
    (∃ e ∈ es, e.key = key ∧ (es.find? fun e => e.key = key) = some e) ∨
      ((∀ e ∈ es, e.key ≠ key) ∧ (es.find? fun e => e.key = key) = none) := by
  cases hfind : es.find? fun e => e.key = key with
  | some e =>
    exact .inl ⟨e, List.mem_of_find?_eq_some hfind, by simpa using List.find?_some hfind, rfl⟩
  | none => exact .inr ⟨by simpa using hfind, rfl⟩

/-! ## Calls -/

/-- **`get`** returns the same. -/
theorem Represents.get (h : Represents size m fm) (key : FrameId) :
    ∃ m', m.get key = some ((fm.get key).1, m') ∧ Represents size m' (fm.get key).2 := by
  obtain ⟨es, frame, hbooks, rfl⟩ := h
  obtain ⟨m', hget, hallocator, hbooks'⟩ := hbooks.get key
  rw [FrameManager.get, find_ofEntries, hget]
  refine ⟨m', ?_, recencyStep es (.get key), frame, hbooks', ?_⟩
  all_goals obtain ⟨e, -, -, hfind⟩ | ⟨hkey, hfind⟩ := find_cases es key
  · rw [hfind]
    rfl
  · rw [hfind]
    rfl
  · rw [hfind, hallocator]
    exact touch_ofEntries hbooks.entries.keys hfind
  · rw [hfind, hallocator, recencyStep_get_of_ne hkey]
    rfl

/-- **`alloc`** returns the same. -/
theorem Represents.alloc (h : Represents size m fm) {address : ℕ}
    (haddress : address ∉ m.frames.searcher) (key : FrameId) :
    ∃ m', m.alloc address key = some ((fm.alloc key).1, m') ∧
      Represents size m' (fm.alloc key).2 := by
  obtain ⟨es, frame, hbooks, rfl⟩ := h
  have hfrees₀ : (ofEntries frame es m.allocator.frees).frees = m.allocator.frees := rfl
  rw [FrameManager.alloc, find_ofEntries, hfrees₀]
  obtain ⟨hcause, m', halloc, hallocator, hbooks'⟩ | ⟨hkey, f, m', halloc, hfrees, hbooks'⟩ :=
    hbooks.alloc haddress key
  · obtain ⟨e, -, -, hfind⟩ | ⟨hkey, hfind⟩ := find_cases es key
    · rw [hfind, halloc]
      refine ⟨m', rfl, recencyStep es (.get key), frame, hbooks', ?_⟩
      rw [hallocator]
      exact touch_ofEntries hbooks.entries.keys hfind
    · obtain ⟨e, he, hlive⟩ | hempty := hcause
      · exact absurd hlive (hkey e he)
      · rw [recencyStep_get_of_ne hkey] at hbooks'
        rw [hfind, halloc, hempty]
        refine ⟨m', rfl, es, frame, hbooks', ?_⟩
        rw [hallocator, hempty]
        rfl
  · rw [recencyStep_get_of_ne hkey, recencyStep_put_of_ne hkey] at hbooks'
    rw [find?_eq_none_of_ne hkey, halloc, hfrees]
    exact ⟨m', rfl, _, frame, hbooks', rfl⟩

/-- **`free`** returns the same. -/
theorem Represents.free (h : Represents size m fm) (key : FrameId) (f : ℕ) :
    ∃ m', m.free key (some f) = some ((fm.free key f).1, m') ∧
      Represents size m' (fm.free key f).2 := by
  obtain ⟨es, frame, hbooks, rfl⟩ := h
  have hkeys := hbooks.entries.keys
  rw [FrameManager.free, find_ofEntries]
  obtain ⟨hforeign, links, hfree, -, -, hbooks'⟩ |
    ⟨⟨e, he, rfl, hframe⟩, f', m', hfree, hf, hfrees, hbooks'⟩ := hbooks.free key (some f)
  · obtain ⟨e, he, hkey, hfind⟩ | ⟨hkey, hfind⟩ := find_cases es key
    · have hne : f ≠ e.value := fun hf => hforeign e he hkey (congrArg some hf)
      rw [hfind, Option.map_some, hfree]
      dsimp only
      rw [if_pos hne]
      exact ⟨_, rfl, _, frame, hbooks', touch_ofEntries hkeys hfind⟩
    · rw [recencyStep_get_of_ne hkey] at hbooks'
      rw [hfind, hfree]
      exact ⟨_, rfl, es, frame, hbooks', rfl⟩
  · obtain rfl : f = e.value := Option.some.inj hframe
    obtain rfl : e.value = f' := Option.some.inj hf
    have hfind : (es.find? fun e' => e'.key = e.key) = some e := by
      obtain ⟨es₁, es₂, rfl⟩ := List.append_of_mem he
      exact find?_split hkeys
    rw [recencyStep_get_remove hkeys he] at hbooks'
    rw [hfind, Option.map_some, hfree]
    dsimp only
    rw [if_neg fun hne => hne rfl]
    refine ⟨m', rfl, _, frame, hbooks', ?_⟩
    rw [hfrees, ofEntries, ofEntries, ← erase_entryList hkeys he]

/-! ## Searches -/

/-- **`begin_purge`** returns the same. -/
theorem Represents.beginPurge (h : Represents size m fm) :
    m.beginPurge (fun f => (fm.frame f).pinCount) = some fm.beginPurge := by
  obtain ⟨es, frame, hbooks, rfl⟩ := h
  obtain ⟨cells, hholds, rfl⟩ := hbooks.entries
  rw [beginPurge_eq hholds, FrameManager.beginPurge, ofEntries, entryList]
  generalize List.map Prod.snd cells = es
  dsimp only
  rw [← List.map_reverse, List.find?_map, Option.map_map]
  rfl

/-- `find_list` keeps the frames of the file. By induction on the entries. -/
theorem visit_findList (fileDesc : Int) (frames : List ℕ) (es : List (Entry FrameId ℕ)) :
    LruCache.visit (fun frames (key : FrameId) frame =>
        (if fileDesc = key.fileDesc then frames ++ [frame] else frames, true)) frames es =
      frames ++ ((entryList es).filter fun e => e.1.fileDesc = fileDesc).map (·.2) := by
  unfold entryList
  induction es generalizing frames with
  | nil => exact (List.append_nil _).symm
  | cons e es ih =>
    rw [LruCache.visit]
    dsimp only
    rw [if_pos rfl, ih, List.map_cons, List.filter_cons]
    by_cases hfile : fileDesc = e.key.fileDesc
    · rw [if_pos hfile, if_pos (decide_eq_true hfile.symm), List.append_assoc]
      rfl
    · rw [if_neg hfile, if_neg fun heq => hfile (of_decide_eq_true heq).symm]

/-- **`find_list`** returns the same. -/
theorem Represents.findList (h : Represents size m fm) (fileDesc : Int) :
    m.findList fileDesc = some (fm.findList fileDesc) := by
  obtain ⟨es, frame, hbooks, rfl⟩ := h
  obtain ⟨cells, hholds, rfl⟩ := hbooks.entries
  rw [BPFrameManager.findList, hholds.foreach_eq, visit_findList, List.nil_append]
  rfl

/-- A new frame manager has no frames, and the pool has all of them. -/
theorem represents_init {dynamic : Bool} {items poolNum : ℤ}
    (h : (new dynamic items : BPFrameManager FrameId).init poolNum = (.success, m))
    (frame : ℕ → Frame D) :
    Represents (poolNum.toNat * 128) m ⟨frame, [], m.allocator.frees⟩ := by
  obtain ⟨es, hbooks, hrecalls⟩ := follows_init h
  have hnil : es = [] := by
    refine List.eq_nil_iff_forall_not_mem.mpr fun e he => ?_
    exact nomatch (hrecalls.values e.key e.value).mp he
  subst hnil
  exact ⟨[], frame, hbooks, rfl⟩

end BPFrameManager

end Miniob.Storage.DiskBufferPool
