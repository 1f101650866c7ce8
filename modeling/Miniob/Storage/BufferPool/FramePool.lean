import Miniob.Storage.BufferPool.BPFrameManager

/-!
# The frames of a frame manager

The cache has the keys and their frames, and the memory pool knows which frames are used. Each call of
`BPFrameManager` changes both.

* `FrameCall`, `FrameReply`, `run`: calls one after the other, with what they return.
* `held`: the frames that the keys have, from the calls and their replies alone.
* `Books`: the cache has these entries, and the used frames are theirs.
* `books_call`: a call succeeds and keeps the books.
* `FrameTable`, `frameTable_run`: what holds after any calls.
-/

namespace Miniob.Storage.DiskBufferPool

open Miniob.Lib Miniob.Common Miniob.Storage.BufferPool

/-- A call of the frame manager. -/
inductive FrameCall (Key : Type)
  | alloc (key : Key)
  | get (key : Key)
  | free (key : Key) (frame : Option ℕ)

/-- What a call returns: a frame or no frame, or a code. -/
inductive FrameReply
  | frame (frame : Option ℕ)
  | code (rc : RC)

namespace BPFrameManager

variable {Key : Type} [DecidableEq Key]

/-- One call, with the address of a new node of the cache. -/
def call (m : BPFrameManager Key) (address : ℕ) :
    FrameCall Key → Option (FrameReply × BPFrameManager Key)
  | .alloc key => (m.alloc address key).map fun r => (.frame r.1, r.2)
  | .get key => (m.get key).map fun r => (.frame r.1, r.2)
  | .free key frame => (m.free key frame).map fun r => (.code r.1, r.2)

/-- Calls one after the other. -/
def run (alloc : NodeAllocator) : ℕ → BPFrameManager Key → List (FrameCall Key) →
    Option (List (FrameCall Key × FrameReply) × BPFrameManager Key)
  | _, m, [] => some ([], m)
  | i, m, c :: calls => do
    let (reply, m) ← m.call (alloc.new i m.frames.searcher) c
    let (trace, m) ← run alloc (i + 1) m calls
    return ((c, reply) :: trace, m)

/-! ## What the replies say -/

/-- The frames of the keys after a call. -/
def heldStep (frames : Key → Option ℕ) : FrameCall Key × FrameReply → Key → Option ℕ
  | (.alloc key, .frame (some frame)) => fun k => if k = key then some frame else frames k
  | (.free key _, .code rc) =>
    if rc = .success then fun k => if k = key then none else frames k else frames
  | _ => frames

/-- The frame that `alloc` has returned for a key that has not been freed since. -/
def held (trace : List (FrameCall Key × FrameReply)) : Key → Option ℕ :=
  trace.foldl heldStep fun _ => none

/-- The operations on the cache. -/
def cacheOps : FrameCall Key × FrameReply → List (CacheOp Key ℕ)
  | (.alloc key, .frame (some frame)) => [.get key, .put key frame]
  | (.alloc key, _) => [.get key]
  | (.get key, _) => [.get key]
  | (.free key _, .code rc) => if rc = .success then [.get key, .remove key] else [.get key]
  | (.free key _, _) => [.get key]

variable {m m' : BPFrameManager Key} {es : List (Entry Key ℕ)} {key : Key} {frame : Option ℕ}
  {frames : LruCache Key ℕ} {address size f : ℕ} {trace : List (FrameCall Key × FrameReply)}
  {ops : List (CacheOp Key ℕ)}

theorem held_concat (trace : List (FrameCall Key × FrameReply)) (last : FrameCall Key × FrameReply) :
    held (trace ++ [last]) = heldStep (held trace) last := by
  rw [held, List.foldl_concat]
  rfl

/-- The values in the cache are the frames of the keys. By induction on the calls. -/
theorem latest_cacheOps (trace : List (FrameCall Key × FrameReply)) :
    latest (trace.flatMap cacheOps) = held trace := by
  induction trace using List.reverseRecOn with
  | nil => rfl
  | append_singleton trace last ih =>
    have hstep : ∀ ops, latest (ops ++ cacheOps last) = heldStep (latest ops) last := by
      intro ops
      obtain ⟨call, reply⟩ := last
      cases call with
      | get key => exact latest_concat ops _
      | alloc key =>
        obtain (_ | f) | rc := reply
        · exact latest_concat ops _
        · rw [cacheOps, List.append_cons, latest_concat, latest_concat]
          rfl
        · exact latest_concat ops _
      | free key frame =>
        obtain f | rc := reply
        · exact latest_concat ops _
        · rw [cacheOps, heldStep]
          split_ifs
          · rw [List.append_cons, latest_concat, latest_concat]
            rfl
          · exact latest_concat ops _
    rw [List.flatMap_append, List.flatMap_singleton, hstep, ih, held_concat]

/-! ## Books -/

/-- The cache has these entries, in this order. -/
def HasEntries (c : LruCache Key ℕ) (es : List (Entry Key ℕ)) : Prop :=
  ∃ cells, c.Holds cells ∧ cells.map Prod.snd = es

/-- The cache and the pool agree: the used frames are those of the entries, each with one entry. -/
structure Books (size : ℕ) (m : BPFrameManager Key) (es : List (Entry Key ℕ)) : Prop where
  entries : HasEntries m.frames es
  values : (es.map Entry.value).Nodup
  used : ∀ f, f ∈ m.allocator.used ↔ ∃ e ∈ es, e.value = f
  parts : m.allocator.Parts
  dynamic : m.allocator.dynamic = false
  size : m.allocator.size = size

variable {m₁ : BPFrameManager Key} {e : Entry Key ℕ}

omit [DecidableEq Key] in
/-- The entries may be in another order. -/
theorem Books.perm {es' : List (Entry Key ℕ)} (h : Books size m es) (hperm : es'.Perm es)
    (hentries : HasEntries frames es') : Books size { m with frames := frames } es' := by
  obtain ⟨-, hvalues, hused, hparts, hdynamic, hsize⟩ := h
  refine ⟨hentries, (hperm.map _).nodup_iff.mpr hvalues, fun f => ?_, hparts, hdynamic, hsize⟩
  rw [hused f]
  simp only [hperm.mem_iff]

omit [DecidableEq Key] in
theorem HasEntries.keys (h : HasEntries frames es) : (es.map Entry.key).Nodup := by
  obtain ⟨cells, hholds, rfl⟩ := h
  exact hholds.keys_map

/-- A key is used. Only the pointers of the cache change. -/
theorem HasEntries.get (h : HasEntries frames es) (key : Key) :
    ∃ links, frames.get key =
        some ((es.find? fun e => e.key = key).map Entry.value, { frames with links := links }) ∧
      HasEntries { frames with links := links } (recencyStep es (.get key)) := by
  obtain ⟨cells, hholds, rfl⟩ := h
  obtain ⟨links, cells', hget, hholds', hcells'⟩ := hholds.get key
  exact ⟨links, hget, cells', hholds', hcells'⟩

/-- A key that is not in the cache. -/
theorem HasEntries.get_of_ne (h : HasEntries frames es) (hkey : ∀ e ∈ es, e.key ≠ key) :
    frames.get key = some (none, frames) := by
  obtain ⟨cells, hholds, rfl⟩ := h
  exact hholds.get_of_ne fun e he => hkey e.2 (List.mem_map_of_mem he)

/-- A use of a key keeps the books. -/
theorem Books.touch (h : Books size m es) (hentries : HasEntries frames (recencyStep es (.get key))) :
    Books size { m with frames := frames } (recencyStep es (.get key)) :=
  h.perm (recencyStep_get_perm h.entries.keys key) hentries

/-- **What `get` does.** -/
theorem Books.get (h : Books size m es) (key : Key) :
    ∃ m', m.get key = some ((es.find? fun e => e.key = key).map Entry.value, m') ∧
      m'.allocator = m.allocator ∧ Books size m' (recencyStep es (.get key)) := by
  obtain ⟨links, hget, hentries⟩ := h.entries.get key
  refine ⟨{ m with frames := { m.frames with links := links } }, ?_, rfl, h.touch hentries⟩
  rw [BPFrameManager.get, hget]
  rfl

omit [DecidableEq Key] in
/-- A free frame is put under a key that has none. -/
theorem Books.take {frees : List ℕ} (h : Books size m es) (hfrees : m.allocator.frees = f :: frees)
    (hentries : HasEntries frames (⟨key, f⟩ :: es)) :
    Books size ⟨frames, { m.allocator with used := insert f m.allocator.used, frees := frees }⟩
      (⟨key, f⟩ :: es) := by
  obtain ⟨-, hvalues, hused, hparts, hdynamic, hsize⟩ := h
  have hnew : f ∉ m.allocator.used :=
    hparts.disjoint f (hfrees ▸ List.mem_cons_self)
  refine ⟨hentries, ?_, fun g => ?_, hparts.takeFront hfrees, hdynamic, hsize⟩
  · refine List.nodup_cons.mpr ⟨fun hmem => hnew ?_, hvalues⟩
    exact (hused f).mpr (List.mem_map.mp hmem)
  · rw [Finset.mem_insert, hused g]
    simp [eq_comm]

omit [DecidableEq Key] in
/-- The frame of an entry is given back. -/
theorem Books.give {es : List (Entry Key ℕ)} (h : Books size m (e :: es))
    (hentries : HasEntries frames es) :
    Books size ⟨frames, m.allocator.free e.value⟩ es := by
  obtain ⟨-, hvalues, hused, hparts, hdynamic, hsize⟩ := h
  obtain ⟨hnew, hvalues⟩ := List.nodup_cons.mp hvalues
  have hmem : e.value ∈ m.allocator.used := (hused _).mpr ⟨e, List.mem_cons_self, rfl⟩
  have hfree : m.allocator.free e.value = { m.allocator with
      used := m.allocator.used.erase e.value, frees := m.allocator.frees ++ [e.value] } :=
    if_pos hmem
  have hparts' := hparts.free e.value
  rw [hfree] at hparts' ⊢
  refine ⟨hentries, hvalues, fun g => ?_, hparts', hdynamic, hsize⟩
  rw [Finset.mem_erase, hused g]
  constructor
  · rintro ⟨hne, e', he', rfl⟩
    obtain rfl | he' := List.mem_cons.mp he'
    · exact absurd rfl hne
    · exact ⟨e', he', rfl⟩
  · rintro ⟨e', he', rfl⟩
    exact ⟨fun heq => hnew (heq ▸ List.mem_map_of_mem he'), e', .tail _ he', rfl⟩

/-- **What `alloc` does**: it fails and uses the key, or it puts a free frame under a key that has
none. -/
theorem Books.alloc (h : Books size m es) (haddress : address ∉ m.frames.searcher) (key : Key) :
    (((∃ e ∈ es, e.key = key) ∨ m.allocator.frees = []) ∧
      ∃ m', m.alloc address key = some (none, m') ∧ m'.allocator = m.allocator ∧
        Books size m' (recencyStep es (.get key))) ∨
    ((∀ e ∈ es, e.key ≠ key) ∧ ∃ f m', m.alloc address key = some (some f, m') ∧
      m.allocator.frees = f :: m'.allocator.frees ∧
        Books size m' (recencyStep (recencyStep es (.get key)) (.put key f))) := by
  obtain ⟨links, hget, hentries⟩ := h.entries.get key
  unfold BPFrameManager.alloc
  dsimp only [Option.bind_eq_bind]
  rw [hget, Option.bind_some]
  dsimp only
  cases hfind : es.find? fun e => e.key = key with
  | some e =>
    have hkey : e.key = key := by simpa using List.find?_some hfind
    exact .inl ⟨.inl ⟨e, List.mem_of_find?_eq_some hfind, hkey⟩, _, rfl, rfl, h.touch hentries⟩
  | none =>
    have hkey : ∀ e ∈ es, e.key ≠ key := by simpa using hfind
    obtain ⟨hfrees, halloc⟩ | ⟨f, frees, hfrees, halloc⟩ := m.allocator.alloc_cases h.dynamic
    · rw [halloc]
      exact .inl ⟨.inr hfrees, _, rfl, rfl, h.touch hentries⟩
    · have hsame := recencyStep_get_of_ne hkey
      have hput' : recencyStep es (.put key f) = ⟨key, f⟩ :: es := recencyStep_put_of_ne hkey
      obtain ⟨cells, hholds, hcells⟩ := hentries
      obtain ⟨c', cells', hput, hholds', hcells'⟩ := hholds.put haddress key f
      rw [hcells, hsame, hput'] at hcells'
      have htake := h.take hfrees ⟨cells', hholds', hcells'⟩
      rw [← hput', ← hsame] at htake
      rw [halloc]
      refine .inr ⟨hkey, f, _, ?_, hfrees, htake⟩
      simp [hput]

/-- **What `free` does**: it fails and uses the key, as `get` does, or it gives the frame of the key
back. -/
theorem Books.free (h : Books size m es) (key : Key) (frame : Option ℕ) :
    ((∀ e ∈ es, e.key = key → frame ≠ some e.value) ∧
      ∃ links, m.free key frame =
          some (.genericError, { m with frames := { m.frames with links := links } }) ∧
        (m.get key).map Prod.snd = some { m with frames := { m.frames with links := links } } ∧
        ((∀ e ∈ es, e.key ≠ key) → links = m.frames.links) ∧
        Books size { m with frames := { m.frames with links := links } }
          (recencyStep es (.get key))) ∨
    ((∃ e ∈ es, e.key = key ∧ frame = some e.value) ∧
      ∃ f m', m.free key frame = some (.success, m') ∧ frame = some f ∧
        m'.allocator.frees = m.allocator.frees ++ [f] ∧
        Books size m' (recencyStep (recencyStep es (.get key)) (.remove key))) := by
  obtain ⟨links, hget, hentries⟩ := h.entries.get key
  have htouch := h.touch hentries
  have hstays : (∀ e ∈ es, e.key ≠ key) → links = m.frames.links := by
    intro hkey
    rw [h.entries.get_of_ne hkey] at hget
    exact (congrArg LruCache.links (Prod.ext_iff.mp (Option.some.inj hget)).2).symm
  have hused : (m.get key).map Prod.snd =
      some { m with frames := { m.frames with links := links } } := by
    rw [BPFrameManager.get, hget]
    rfl
  unfold BPFrameManager.free
  dsimp only [Option.bind_eq_bind]
  rw [hget, Option.bind_some]
  cases hfind : es.find? fun e => e.key = key with
  | none =>
    have hkey : ∀ e ∈ es, e.key ≠ key := by simpa using hfind
    exact .inl ⟨fun e he heq => absurd heq (hkey e he), links, rfl, hused, hstays, htouch⟩
  | some e =>
    have he := List.mem_of_find?_eq_some hfind
    have hkey : e.key = key := by simpa using List.find?_some hfind
    dsimp only [Option.map_some]
    split_ifs with hframe
    · refine .inl ⟨fun e' he' hkey' => ?_, links, rfl, hused, hstays, htouch⟩
      obtain rfl := List.inj_on_of_nodup_map h.entries.keys he' he (hkey'.trans hkey.symm)
      exact hframe
    · subst hkey
      have hmoved : recencyStep es (.get e.key) = e :: others es e.key := by
        rw [recencyStep, hfind]
      have hothers := recencyStep_get_remove h.entries.keys he
      obtain ⟨cells, hholds, hcells⟩ := hentries
      obtain ⟨c', cells', hremove, hholds', hcells'⟩ := hholds.remove e.key
      rw [hcells, hothers] at hcells'
      rw [hmoved] at htouch
      rw [hothers]
      refine .inr ⟨⟨e, he, rfl, not_not.mp hframe⟩, e.value, ⟨c', _⟩, ?_, not_not.mp hframe, ?_,
        htouch.give ⟨cells', hholds', hcells'⟩⟩
      · simp [hremove]
      · exact congrArg MemPoolSimple.frees (if_pos ((h.used _).mpr ⟨e, he, rfl⟩))

/-! ## Runs -/

/-- The books are those of calls: the entries have the frames that the replies say, in the order of
the last uses. -/
def Follows (size : ℕ) (trace : List (FrameCall Key × FrameReply)) (m : BPFrameManager Key) : Prop :=
  ∃ es, Books size m es ∧ Recalls (trace.flatMap cacheOps) es

/-- A call that does one operation on the cache, or two. -/
theorem Recalls.call {last : FrameCall Key × FrameReply}
    (h : Recalls (trace.flatMap cacheOps) es) :
    Recalls ((trace ++ [last]).flatMap cacheOps) ((cacheOps last).foldl recencyStep es) := by
  rw [List.flatMap_append, List.flatMap_singleton]
  exact recalls_foldl h _

/-- **One call** succeeds and keeps the books. -/
theorem follows_call (h : Follows size trace m) (haddress : address ∉ m.frames.searcher)
    (c : FrameCall Key) :
    ∃ reply m', m.call address c = some (reply, m') ∧ Follows size (trace ++ [(c, reply)]) m' := by
  obtain ⟨es, hbooks, hrecalls⟩ := h
  cases c with
  | get key =>
    obtain ⟨m', hget, -, hbooks'⟩ := hbooks.get key
    rw [call, hget]
    exact ⟨_, m', rfl, _, hbooks', Recalls.call hrecalls⟩
  | alloc key =>
    obtain ⟨-, m', halloc, -, hbooks'⟩ | ⟨-, f, m', halloc, -, hbooks'⟩ :=
      hbooks.alloc haddress key
    · rw [call, halloc]
      exact ⟨.frame none, m', rfl, _, hbooks', Recalls.call hrecalls⟩
    · rw [call, halloc]
      exact ⟨.frame (some f), m', rfl, _, hbooks', Recalls.call hrecalls⟩
  | free key frame =>
    obtain ⟨-, links, hfree, -, -, hbooks'⟩ | ⟨-, f, m', hfree, -, -, hbooks'⟩ :=
      hbooks.free key frame
    · rw [call, hfree]
      exact ⟨.code .genericError, _, rfl, _, hbooks', Recalls.call hrecalls⟩
    · rw [call, hfree]
      exact ⟨.code .success, m', rfl, _, hbooks', Recalls.call hrecalls⟩

/-- **Any calls.** By induction on them. -/
theorem follows_run (h : Follows size trace m) (alloc : NodeAllocator) (i : ℕ)
    (calls : List (FrameCall Key)) :
    ∃ trace' m', run alloc i m calls = some (trace', m') ∧ Follows size (trace ++ trace') m' := by
  induction calls generalizing i m trace with
  | nil => exact ⟨[], m, rfl, by rwa [List.append_nil]⟩
  | cons c calls ih =>
    obtain ⟨reply, m₁, hcall, h₁⟩ := follows_call h (alloc.new_notMem i _) c
    obtain ⟨trace', m', hrun, h'⟩ := ih h₁ (i + 1)
    refine ⟨(c, reply) :: trace', m', ?_, by rwa [List.append_assoc] at h'⟩
    rw [run, hcall]
    dsimp only [Option.bind_eq_bind, Option.bind_some]
    rw [hrun]
    rfl

/-- A new frame manager with a pool. -/
theorem follows_init {dynamic : Bool} {items poolNum : ℤ}
    (h : (new dynamic items : BPFrameManager Key).init poolNum = (.success, m)) :
    Follows (poolNum.toNat * 128) [] m := by
  unfold init new at h
  cases hinit : (MemPoolSimple.new dynamic items).init false poolNum itemNumPerPool with
  | mk ret allocator =>
    rw [hinit] at h
    obtain ⟨hret, rfl⟩ := Prod.ext_iff.mp h
    have hzero : ret = 0 := by
      by_contra hne
      dsimp only at hret
      rw [if_neg hne] at hret
      cases hret
    subst hzero
    obtain ⟨hparts, hused, hdynamic, hsize⟩ := MemPoolSimple.init_parts hinit
    refine ⟨[], ⟨⟨[], LruCache.holds_empty, rfl⟩, List.nodup_nil, fun f => ?_, hparts, hdynamic,
      hsize⟩, recalls_nil⟩
    simp [hused]

/-- After any calls `begin_purge` finds the unpinned frame that was used longest ago. -/
theorem Follows.beginPurge (h : Follows size trace m) (pinCount : ℕ → ℕ) :
    ∃ r, m.beginPurge pinCount = some r ∧
      LeastRecentlyUsed (trace.flatMap cacheOps) pinCount r := by
  obtain ⟨es, hbooks, hrecalls⟩ := h
  obtain ⟨cells, hholds, rfl⟩ := hbooks.entries
  exact beginPurge_leastRecentlyUsed hholds hrecalls

/-- What holds after calls. The size is that of the pool. -/
structure FrameTable (size : ℕ) (trace : List (FrameCall Key × FrameReply))
    (m : BPFrameManager Key) : Prop where
  /-- The entries of the cache are the live keys with their frames. -/
  live : ∀ key f, (∃ a ∈ m.frames.searcher, m.frames.nodes a = some ⟨key, f⟩) ↔
    held trace key = some f
  /-- Different keys have different frames. -/
  injective : ∀ key key' f, held trace key = some f → held trace key' = some f → key = key'
  /-- The used frames are those of the live keys. -/
  used : ∀ f, f ∈ m.allocator.used ↔ ∃ key, held trace key = some f
  /-- A frame is used or free, and it is free once. -/
  free_nodup : m.allocator.frees.Nodup
  free_disjoint : ∀ f ∈ m.allocator.frees, f ∉ m.allocator.used
  pool : ∀ f, f ∈ m.allocator.used ∨ f ∈ m.allocator.frees ↔ f < size
  /-- What the next call of `alloc` returns. -/
  alloc : ∀ address ∉ m.frames.searcher, ∀ key, ∃ r m', m.alloc address key = some (r, m') ∧
    (r = none ↔ held trace key ≠ none ∨ m.allocator.frees = []) ∧
      ∀ f, r = some f → ∀ k, held trace k ≠ some f
  /-- What the next call of `get` returns. -/
  get : ∀ key, ∃ m', m.get key = some (held trace key, m')
  /-- What the next call of `free` does. If it fails, then it leaves what `get` leaves: only the
  pointers of the cache may have changed, and not even these if the key is not live. -/
  free : ∀ key frame, ∃ rc m', m.free key frame = some (rc, m') ∧
    (rc = .success ↔ ∃ f, held trace key = some f ∧ frame = some f) ∧
      (rc ≠ .success → m.get key = some (held trace key, m') ∧
        (∃ links, m' = { m with frames := { m.frames with links := links } }) ∧
        (held trace key = none → m' = m))
  /-- `begin_purge` finds the unpinned frame that was used longest ago. A call that fails counts as a
  use of its key. -/
  purge : ∀ pinCount : ℕ → ℕ, ∃ r, m.beginPurge pinCount = some r ∧
    LeastRecentlyUsed (trace.flatMap cacheOps) pinCount r

omit [DecidableEq Key] in
/-- The nodes of the hash set have the entries. -/
theorem HasEntries.mem_iff (h : HasEntries frames es) :
    (∃ a ∈ frames.searcher, frames.nodes a = some e) ↔ e ∈ es := by
  obtain ⟨cells, hholds, rfl⟩ := h
  constructor
  · rintro ⟨a, ha, he⟩
    obtain ⟨e', he'⟩ := hholds.mem_searcher.mp ha
    obtain rfl : e' = e := Option.some.inj ((hholds.nodes _ he').symm.trans he)
    exact List.mem_map_of_mem he'
  · intro he
    obtain ⟨⟨a, e'⟩, he', rfl⟩ := List.mem_map.mp he
    exact ⟨a, hholds.mem_searcher.mpr ⟨e', he'⟩, hholds.nodes _ he'⟩

/-- The entries are the live keys with their frames. -/
theorem mem_iff_held (h : Recalls (trace.flatMap cacheOps) es) :
    ⟨key, f⟩ ∈ es ↔ held trace key = some f := by
  rw [h.values, latest_cacheOps]

theorem forall_ne_iff_held (h : Recalls (trace.flatMap cacheOps) es) :
    (∀ e ∈ es, e.key ≠ key) ↔ held trace key = none := by
  rw [← latest_cacheOps, ← h.find?_key key, Option.map_eq_none_iff]
  simp

/-- What the next call of `alloc` returns. -/
theorem Books.alloc_held (hbooks : Books size m es) (h : Recalls (trace.flatMap cacheOps) es)
    (haddress : address ∉ m.frames.searcher) (key : Key) :
    ∃ r m', m.alloc address key = some (r, m') ∧
      (r = none ↔ held trace key ≠ none ∨ m.allocator.frees = []) ∧
        ∀ f, r = some f → ∀ k, held trace k ≠ some f := by
  obtain ⟨hcause, m', halloc, -⟩ | ⟨hkey, f, m', halloc, hfrees, -⟩ := hbooks.alloc haddress key
  · refine ⟨none, m', halloc, iff_of_true rfl ?_, fun f hf => nomatch hf⟩
    refine hcause.imp_left fun ⟨e, he, hkey⟩ hdead => ?_
    exact (forall_ne_iff_held h).mpr hdead e he hkey
  · have hf : f ∈ m.allocator.frees := hfrees ▸ List.mem_cons_self
    refine ⟨some f, m', halloc, iff_of_false (Option.some_ne_none f) ?_, fun g hg k hk => ?_⟩
    · rintro (hlive | hempty)
      · exact hlive ((forall_ne_iff_held h).mp hkey)
      · exact List.not_mem_nil (hempty ▸ hf)
    · obtain rfl := Option.some.inj hg
      have hused := (hbooks.used f).mpr ⟨_, (mem_iff_held h).mpr hk, rfl⟩
      exact hbooks.parts.disjoint f hf hused

/-- What the next call of `free` does. -/
theorem Books.free_held (hbooks : Books size m es) (h : Recalls (trace.flatMap cacheOps) es)
    (key : Key) (frame : Option ℕ) :
    ∃ rc m', m.free key frame = some (rc, m') ∧
      (rc = .success ↔ ∃ f, held trace key = some f ∧ frame = some f) ∧
        (rc ≠ .success → m.get key = some (held trace key, m') ∧
          (∃ links, m' = { m with frames := { m.frames with links := links } }) ∧
          (held trace key = none → m' = m)) := by
  obtain ⟨hforeign, links, hfree, hused, hstays, -⟩ | ⟨⟨e, he, rfl, hframe⟩, -, m', hfree, -⟩ :=
    hbooks.free key frame
  · refine ⟨_, _, hfree, iff_of_false (by decide) ?_, fun _ => ⟨?_, ⟨links, rfl⟩, fun hdead => ?_⟩⟩
    · rintro ⟨f, hlive, rfl⟩
      exact hforeign _ ((mem_iff_held h).mpr hlive) rfl rfl
    · obtain ⟨m', hget, -⟩ := hbooks.get key
      rw [hget] at hused
      rw [hget, h.find?_key, latest_cacheOps]
      exact congrArg (fun m => some (held trace key, m)) (Option.some.inj hused)
    · rw [hstays ((forall_ne_iff_held h).mpr hdead)]
  · refine ⟨_, m', hfree, iff_of_true rfl ⟨e.value, (mem_iff_held h).mp he, hframe⟩, fun hne => ?_⟩
    exact absurd rfl hne

/-- The books say what holds. -/
theorem Follows.frameTable (h : Follows size trace m) : FrameTable size trace m := by
  have hpurge := h.beginPurge
  obtain ⟨es, hbooks, hrecalls⟩ := h
  refine ⟨fun key f => ?_, fun key key' f hkey hkey' => ?_, fun f => ?_, hbooks.parts.nodup,
    hbooks.parts.disjoint, fun f => ?_, fun _ => hbooks.alloc_held hrecalls, fun key => ?_,
    hbooks.free_held hrecalls, hpurge⟩
  · rw [hbooks.entries.mem_iff, mem_iff_held hrecalls]
  · have heq := List.inj_on_of_nodup_map hbooks.values ((mem_iff_held hrecalls).mpr hkey)
      ((mem_iff_held hrecalls).mpr hkey') rfl
    exact congrArg Entry.key heq
  · rw [hbooks.used f]
    constructor
    · rintro ⟨⟨key, f⟩, he, rfl⟩
      exact ⟨key, (mem_iff_held hrecalls).mp he⟩
    · rintro ⟨key, hkey⟩
      exact ⟨_, (mem_iff_held hrecalls).mpr hkey, rfl⟩
  · rw [hbooks.parts.cover f, hbooks.size]
  · obtain ⟨m', hget, -⟩ := hbooks.get key
    rw [hrecalls.find?_key, latest_cacheOps] at hget
    exact ⟨m', hget⟩

/-- **After any calls** the cache and the pool agree about the frames. -/
theorem frameTable_run {dynamic : Bool} {items poolNum : ℤ}
    (h : (new dynamic items : BPFrameManager Key).init poolNum = (.success, m))
    (alloc : NodeAllocator) (calls : List (FrameCall Key)) :
    ∃ trace m', run alloc 0 m calls = some (trace, m') ∧
      FrameTable (poolNum.toNat * 128) trace m' := by
  obtain ⟨trace, m', hrun, hfollows⟩ := follows_run (follows_init h) alloc 0 calls
  exact ⟨trace, m', hrun, hfollows.frameTable⟩

/-- Two keys, and a frame that is given back with the key of the other one. -/
theorem frameTable_run_two :
    ∃ m trace m', (new false 0 : BPFrameManager FrameId).init 1 = (.success, m) ∧
      run .behind 0 m [.alloc ⟨0, 1⟩, .alloc ⟨0, 2⟩, .free ⟨0, 1⟩ (some 1)] = some (trace, m') ∧
      FrameTable 128 trace m' := by
  have hinit : (new false 0 : BPFrameManager FrameId).init 1 =
      (.success, ((new false 0 : BPFrameManager FrameId).init 1).2) := rfl
  obtain ⟨trace, m', hrun, htable⟩ := frameTable_run hinit .behind
    [.alloc ⟨0, 1⟩, .alloc ⟨0, 2⟩, .free ⟨0, 1⟩ (some 1)]
  exact ⟨_, trace, m', hinit, hrun, htable⟩

/-- With the frame of another key, `free` fails and another frame is the next to be purged. -/
theorem free_foreign_touches :
    ∃ m₀ trace m m', (new false 0 : BPFrameManager FrameId).init 1 = (.success, m₀) ∧
      run .behind 0 m₀ [.alloc ⟨0, 1⟩, .alloc ⟨0, 2⟩] = some (trace, m) ∧
      m.free ⟨0, 1⟩ (some 1) = some (.genericError, m') ∧ m' ≠ m ∧
      m.beginPurge (fun _ => 0) = some (some 0) ∧ m'.beginPurge (fun _ => 0) = some (some 1) := by
  refine ⟨_, _, _, _, rfl, rfl, rfl, fun heq => ?_, rfl, rfl⟩
  have hpurge := congrArg (fun m => m.beginPurge fun _ => 0) heq
  revert hpurge
  decide

end BPFrameManager

end Miniob.Storage.DiskBufferPool
