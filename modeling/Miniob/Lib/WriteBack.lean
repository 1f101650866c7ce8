import Mathlib.Logic.Function.Basic

/-!
# Write-back caches

A cache holds lines over a backing store. A line has the data of its key and a dirty bit; when it is
evicted, the data is written to the store only if the bit is set.

* `WriteBack`: a cache over a store, with `load`, `evict`, `flush`, `modify`, `write` and `purge`.
* `WriteBack.content`: what a reader gets, from the line of the key or else from the store.
* `content_evict_of_kept`: an eviction cannot be seen if the line is dirty or holds what the store
  holds.
-/

namespace Miniob.Lib

variable {K P : Type}

/-- A line of a cache. -/
structure CacheLine (P : Type) where
  /-- The data. -/
  data : P
  /-- The data is written to the store when the line is evicted. -/
  dirty : Bool

/-- A cache over a backing store. -/
structure WriteBack (K P : Type) where
  /-- The lines of the keys that are cached. -/
  lines : K → Option (CacheLine P)
  /-- The backing store. -/
  store : K → P

namespace WriteBack

/-- Nothing is cached. -/
def cold (store : K → P) : WriteBack K P := ⟨fun _ => none, store⟩

/-- What a reader gets. -/
def content (c : WriteBack K P) (k : K) : P := ((c.lines k).map CacheLine.data).getD (c.store k)

@[simp] theorem content_cold (store : K → P) : (cold store).content = store := rfl

theorem content_of_line {c : WriteBack K P} {k : K} {line : CacheLine P}
    (h : c.lines k = some line) : c.content k = line.data := by
  rw [content, h]
  rfl

theorem content_of_none {c : WriteBack K P} {k : K} (h : c.lines k = none) :
    c.content k = c.store k := by
  rw [content, h]
  rfl

/-- The line of a key can go without being missed: it is dirty, or it holds what the store
holds. -/
def Kept (c : WriteBack K P) (k : K) : Prop :=
  ∀ line, c.lines k = some line → line.dirty = false → line.data = c.store k

variable [DecidableEq K]

/-- Bring a key into the cache. -/
def load (c : WriteBack K P) (k : K) : WriteBack K P :=
  match c.lines k with
  | some _ => c
  | none => { c with lines := Function.update c.lines k (some ⟨c.store k, false⟩) }

/-- Drop a line, after writing it to the store if it is dirty. -/
def evict (c : WriteBack K P) (k : K) : WriteBack K P :=
  match c.lines k with
  | some line =>
    { lines := Function.update c.lines k none
      store := if line.dirty then Function.update c.store k line.data else c.store }
  | none => c

/-- Write a line to the store and keep it. -/
def flush (c : WriteBack K P) (k : K) : WriteBack K P :=
  match c.lines k with
  | some line =>
    { lines := Function.update c.lines k (some { line with dirty := false })
      store := Function.update c.store k line.data }
  | none => c

/-- Change the data of a line and leave its dirty bit. -/
def modify (c : WriteBack K P) (k : K) (data : P) : WriteBack K P :=
  { c with lines := Function.update c.lines k ((c.lines k).map fun line => { line with data }) }

/-- Change the data of a key and mark its line dirty. -/
def write (c : WriteBack K P) (k : K) (data : P) : WriteBack K P :=
  { c with lines := Function.update c.lines k (some ⟨data, true⟩) }

/-- Change the data of a key, write it to the store and drop the line. -/
def purge (c : WriteBack K P) (k : K) (data : P) : WriteBack K P := (c.write k data).evict k

variable (c : WriteBack K P) (k : K) (data : P)

@[simp] theorem content_load : (c.load k).content = c.content := by
  unfold load
  split
  · rfl
  · rename_i hnone
    funext j
    by_cases hj : j = k
    · subst hj
      rw [content_of_none hnone]
      simp [content]
    · simp [content, hj]

@[simp] theorem content_write : (c.write k data).content = Function.update c.content k data := by
  funext j
  by_cases hj : j = k
  · subst hj
    simp [content, write]
  · simp [content, write, hj]

theorem load_lines_ne_none : (c.load k).lines k ≠ none := by
  unfold load
  split
  · rename_i line hline
    simp [hline]
  · simp

theorem content_modify (h : c.lines k ≠ none) :
    (c.modify k data).content = Function.update c.content k data := by
  obtain ⟨line, hline⟩ := Option.ne_none_iff_exists'.mp h
  funext j
  by_cases hj : j = k
  · subst hj
    simp [content, modify, hline]
  · simp [content, modify, hj]

/-- After an eviction the store is read. -/
theorem content_evict_self : (c.evict k).content k = (c.evict k).store k := by
  refine content_of_none ?_
  unfold evict
  split
  · simp
  · assumption

/-- An eviction is not seen by those who read other keys. -/
theorem content_evict_of_ne {j : K} (hj : j ≠ k) : (c.evict k).content j = c.content j := by
  unfold evict
  split
  · rename_i line _
    cases line.dirty <;> simp [content, hj]
  · rfl

/-- An eviction is not seen if the line is dirty or holds what the store holds. -/
theorem content_evict_of_kept (h : c.Kept k) : (c.evict k).content = c.content := by
  funext j
  by_cases hj : j = k
  · subst hj
    rw [content_evict_self]
    unfold evict
    split
    · rename_i line hline
      rw [content_of_line hline]
      cases hdirty : line.dirty with
      | true => simp
      | false => simpa using (h line hline hdirty).symm
    · rename_i hnone
      exact (content_of_none hnone).symm
  · exact c.content_evict_of_ne k hj

@[simp] theorem content_purge : (c.purge k data).content = Function.update c.content k data := by
  have hkept : (c.write k data).Kept k := by
    intro line hline hdirty
    simp only [write, Function.update_self, Option.some_inj] at hline
    subst hline
    cases hdirty
  rw [purge, content_evict_of_kept _ k hkept, content_write]

/-- A flush is not seen. -/
@[simp] theorem content_flush : (c.flush k).content = c.content := by
  unfold flush
  split
  · rename_i line hline
    funext j
    by_cases hj : j = k
    · subst hj
      rw [content_of_line hline]
      simp [content]
    · simp [content, hj]
  · rfl

end WriteBack

end Miniob.Lib
