import Mathlib.Data.List.Induction

/-!
# Lists of what has been used last

A cache with keys is read and written, and its entries are kept in the order of their last use.

* `CacheOp`: the operations. `latest` and `UsedAfter` say, from the operations alone, what the value
  of a key is and which of two keys has been used later.
* `Entry`, `recencyStep`, `recencyRun`: the list of the entries, changed by the operations.
* `recalls_run`: after any operations the list has the latest values, in the order of the last uses.
* `Recalls.find?_reverse_some`, `Recalls.find?_reverse_none`: what a search from the end of such a
  list finds.

The value of a key is used when it is put, and when it is got while the key has a value.
-/

namespace Miniob.Lib

variable {K V : Type}

/-- An entry of a cache. -/
structure Entry (K V : Type) where
  /-- The key. -/
  key : K
  /-- The value. -/
  value : V

/-- An operation on a cache. -/
inductive CacheOp (K V : Type)
  /-- Read the value of a key. -/
  | get (key : K)
  /-- Give a key a value. -/
  | put (key : K) (value : V)
  /-- Take the value from a key. -/
  | remove (key : K)

variable [DecidableEq K]

/-! ## Histories -/

/-- The values after an operation. -/
def CacheOp.apply (values : K → Option V) : CacheOp K V → K → Option V
  | get _ => values
  | put key value => fun k => if k = key then some value else values k
  | remove key => fun k => if k = key then none else values k

/-- The latest value of a key. -/
def latest (ops : List (CacheOp K V)) : K → Option V := ops.foldl CacheOp.apply fun _ => none

/-- The key that an operation uses. -/
def CacheOp.Uses (values : K → Option V) (k : K) : CacheOp K V → Prop
  | get key => key = k ∧ values k ≠ none
  | put key _ => key = k
  | remove _ => False

/-- The operation number `i` uses the key. -/
def UsedAt (ops : List (CacheOp K V)) (i : ℕ) (k : K) : Prop :=
  ∃ op, ops[i]? = some op ∧ op.Uses (latest (ops.take i)) k

/-- The first key has been used after the last use of the second. -/
def UsedAfter (ops : List (CacheOp K V)) (k k' : K) : Prop :=
  ∃ i, UsedAt ops i k ∧ ∀ j, i ≤ j → ¬ UsedAt ops j k'

/-! ## Lists -/

/-- The entries of other keys. -/
def others (es : List (Entry K V)) (key : K) : List (Entry K V) := es.filter fun e => e.key ≠ key

/-- The list after an operation. -/
def recencyStep (es : List (Entry K V)) : CacheOp K V → List (Entry K V)
  | .get key =>
    match es.find? fun e => e.key = key with
    | some e => e :: others es e.key
    | none => es
  | .put key value => ⟨key, value⟩ :: others es key
  | .remove key => others es key

/-- The list after all operations. -/
def recencyRun (ops : List (CacheOp K V)) : List (Entry K V) := ops.foldl recencyStep []

/-- The list has the latest values, each once, in the order of the last uses. -/
structure Recalls (ops : List (CacheOp K V)) (es : List (Entry K V)) : Prop where
  keys : (es.map Entry.key).Nodup
  values : ∀ k v, ⟨k, v⟩ ∈ es ↔ latest ops k = some v
  order : es.Pairwise fun e e' => UsedAfter ops e.key e'.key

variable {ops : List (CacheOp K V)} {op : CacheOp K V} {es : List (Entry K V)} {e : Entry K V}
  {k k' key : K} {v : V} {i : ℕ}

theorem latest_concat (ops : List (CacheOp K V)) (op : CacheOp K V) :
    latest (ops ++ [op]) = op.apply (latest ops) := by
  rw [latest, List.foldl_append]
  rfl

/-- An operation that has been done uses what it has used. -/
theorem usedAt_concat_of_lt (h : i < ops.length) :
    UsedAt (ops ++ [op]) i k ↔ UsedAt ops i k := by
  unfold UsedAt
  rw [List.getElem?_append_left h, List.take_append_of_le_length (Nat.le_of_lt h)]

/-- What the last operation uses. -/
theorem usedAt_concat_length : UsedAt (ops ++ [op]) ops.length k ↔ op.Uses (latest ops) k := by
  unfold UsedAt
  rw [List.getElem?_concat_length, List.take_left]
  constructor
  · rintro ⟨op', heq, h⟩
    exact Option.some.inj heq ▸ h
  · exact fun h => ⟨op, rfl, h⟩

/-- Nothing is used after the last operation. -/
theorem not_usedAt_of_length_le (h : ops.length ≤ i) : ¬ UsedAt ops i k := by
  rintro ⟨op, hop, -⟩
  rw [List.getElem?_eq_none h] at hop
  cases hop

/-- Two keys that the last operation does not use. -/
theorem UsedAfter.concat (h : UsedAfter ops k k') (hop : ¬ op.Uses (latest ops) k') :
    UsedAfter (ops ++ [op]) k k' := by
  obtain ⟨i, hi, hlater⟩ := h
  have hlt : i < ops.length := by
    by_contra hle
    exact not_usedAt_of_length_le (by omega) hi
  refine ⟨i, (usedAt_concat_of_lt hlt).mpr hi, fun j hj hused => ?_⟩
  obtain hlt | heq | hgt := Nat.lt_trichotomy j ops.length
  · exact hlater j hj ((usedAt_concat_of_lt hlt).mp hused)
  · rw [heq, usedAt_concat_length] at hused
    exact hop hused
  · exact not_usedAt_of_length_le (by simp; omega) hused

/-- The key that the last operation uses. -/
theorem usedAfter_concat (hk : op.Uses (latest ops) k) (hk' : ¬ op.Uses (latest ops) k') :
    UsedAfter (ops ++ [op]) k k' := by
  refine ⟨ops.length, usedAt_concat_length.mpr hk, fun j hj hused => ?_⟩
  obtain rfl | hgt := Nat.eq_or_lt_of_le hj
  · exact hk' (usedAt_concat_length.mp hused)
  · exact not_usedAt_of_length_le (by simp; omega) hused

/-! ## The order of the last uses -/

theorem mem_others : e ∈ others es key ↔ e ∈ es ∧ e.key ≠ key := by
  rw [others, List.mem_filter, decide_eq_true_iff]

/-- No entry has the key. -/
theorem others_eq_self (h : ∀ e ∈ es, e.key ≠ key) : others es key = es :=
  List.filter_eq_self.mpr fun e he => decide_eq_true (h e he)

omit [DecidableEq K] in
/-- The key of one entry is not that of another one. -/
theorem key_ne_of_split {es₁ es₂ : List (Entry K V)}
    (h : ((es₁ ++ e :: es₂).map Entry.key).Nodup) : ∀ e' ∈ es₁ ++ es₂, e'.key ≠ e.key := by
  intro e' he' heq
  have hnodup := (List.perm_middle.map Entry.key).nodup_iff.mp h
  rw [List.map_cons, List.nodup_cons] at hnodup
  exact hnodup.1 (List.mem_map.mpr ⟨e', he', heq⟩)

/-- One entry has the key. -/
theorem others_split {es₁ es₂ : List (Entry K V)}
    (h : ((es₁ ++ e :: es₂).map Entry.key).Nodup) :
    others (es₁ ++ e :: es₂) e.key = es₁ ++ es₂ := by
  have hself := others_eq_self (key_ne_of_split h)
  rw [others, List.filter_append] at hself ⊢
  rw [List.filter_cons_of_neg (by simp), hself]

/-- An entry with the key is found if it is the only one. -/
theorem find?_split {es₁ es₂ : List (Entry K V)}
    (h : ((es₁ ++ e :: es₂).map Entry.key).Nodup) :
    ((es₁ ++ e :: es₂).find? fun e' => e'.key = e.key) = some e := by
  refine List.find?_eq_some_iff_append.mpr ⟨decide_eq_true rfl, es₁, es₂, rfl, fun e' he' => ?_⟩
  have hne := key_ne_of_split h e' (List.mem_append_left _ he')
  simpa using hne

omit [DecidableEq K] in
/-- An operation uses one key at most. -/
theorem CacheOp.Uses.unique {values : K → Option V} (h : op.Uses values k)
    (h' : op.Uses values k') : k = k' := by
  cases op with
  | get key => exact h.1.symm.trans h'.1
  | put key value => exact h.symm.trans h'
  | remove key => exact h.elim

/-- The other entries keep their order. -/
theorem Recalls.order_others (h : Recalls ops es)
    (hop : ∀ k, op.Uses (latest ops) k → k = key) :
    (others es key).Pairwise fun e e' => UsedAfter (ops ++ [op]) e.key e'.key := by
  refine (h.order.filter _).imp_of_mem fun {e e'} _ he' hafter => hafter.concat fun huses => ?_
  exact (mem_others.mp he').2 (hop _ huses)

/-- An entry at the front of the others, whose key is used. -/
theorem Recalls.cons_others (h : Recalls ops es) (huse : op.Uses (latest ops) e.key)
    (hop : ∀ k, op.Uses (latest ops) k → k = e.key)
    (hlatest : ∀ k, op.apply (latest ops) k =
      if k = e.key then some e.value else latest ops k) :
    Recalls (ops ++ [op]) (e :: others es e.key) := by
  refine ⟨?_, fun k v => ?_, ?_⟩
  · rw [List.map_cons, List.nodup_cons]
    refine ⟨fun hmem => ?_, h.keys.sublist (List.filter_sublist.map _)⟩
    obtain ⟨e', he', hkey⟩ := List.mem_map.mp hmem
    exact (mem_others.mp he').2 hkey
  · rw [latest_concat, hlatest, List.mem_cons, mem_others, h.values]
    obtain ⟨key, value⟩ := e
    split_ifs with hk
    · simp [hk, eq_comm]
    · simp [hk]
  · refine List.pairwise_cons.mpr ⟨fun e' he' => ?_, h.order_others hop⟩
    exact usedAfter_concat huse fun huse' => (mem_others.mp he').2 (hop _ huse')

/-- **One operation.** The cases are those of the operation. -/
theorem recalls_step (h : Recalls ops es) (op : CacheOp K V) :
    Recalls (ops ++ [op]) (recencyStep es op) := by
  cases op with
  | put key value =>
    exact h.cons_others (e := ⟨key, value⟩) rfl (fun k hk => Eq.symm hk) fun k => rfl
  | remove key =>
    refine ⟨h.keys.sublist (List.filter_sublist.map _), fun k v => ?_,
      h.order_others fun k hk => hk.elim⟩
    rw [latest_concat, CacheOp.apply]
    refine (mem_others (e := ⟨k, v⟩)).trans ?_
    rw [h.values]
    by_cases hk : k = key <;> simp [hk]
  | get key =>
    dsimp only [recencyStep]
    cases hfind : es.find? fun e => e.key = key with
    | none =>
      have hnot : ∀ e ∈ es, e.key ≠ key := by simpa using hfind
      refine ⟨h.keys, fun k v => ?_, h.order.imp_of_mem fun {e e'} _ he' hafter => ?_⟩
      · rw [latest_concat, CacheOp.apply, h.values]
      · exact hafter.concat fun huse => hnot e' he' huse.1.symm
    | some e =>
      have hmem : e ∈ es := List.mem_of_find?_eq_some hfind
      have hkey : e.key = key := by simpa using List.find?_some hfind
      have hlatest : latest ops e.key = some e.value := (h.values _ _).mp hmem
      subst hkey
      have huse : (CacheOp.get e.key : CacheOp K V).Uses (latest ops) e.key :=
        ⟨rfl, by rw [hlatest]; exact Option.some_ne_none _⟩
      refine h.cons_others huse (fun k hk => hk.unique huse) fun k => ?_
      rw [CacheOp.apply]
      split_ifs with hk
      · rw [hk, hlatest]
      · rfl

theorem recalls_nil : Recalls ([] : List (CacheOp K V)) [] :=
  ⟨List.nodup_nil, fun _ _ => iff_of_false List.not_mem_nil (Option.some_ne_none _).symm,
    List.Pairwise.nil⟩

/-- **Any operations.** By induction on them, from the end. -/
theorem recalls_foldl (h : Recalls ops es) (ops' : List (CacheOp K V)) :
    Recalls (ops ++ ops') (ops'.foldl recencyStep es) := by
  induction ops' using List.reverseRecOn with
  | nil => rwa [List.append_nil]
  | append_singleton ops' op ih =>
    rw [← List.append_assoc, List.foldl_append]
    exact recalls_step ih op

/-- **After any operations** the list has the latest values in the order of the last uses. -/
theorem recalls_run (ops : List (CacheOp K V)) : Recalls ops (recencyRun ops) :=
  recalls_foldl recalls_nil ops

/-! ## Searches -/

/-- A search for a key finds its latest value. -/
theorem Recalls.find?_key (h : Recalls ops es) (key : K) :
    (es.find? fun e => e.key = key).map Entry.value = latest ops key := by
  cases hfind : es.find? fun e => e.key = key with
  | some e =>
    have hkey : e.key = key := by simpa using List.find?_some hfind
    rw [← hkey]
    exact ((h.values _ _).mp (List.mem_of_find?_eq_some hfind)).symm
  | none =>
    cases hlatest : latest ops key with
    | none => rfl
    | some v =>
      have hnot := List.find?_eq_none.mp hfind _ ((h.values _ _).mpr hlatest)
      exact absurd (decide_eq_true rfl) hnot

theorem find?_eq_none_of_ne (h : ∀ e ∈ es, e.key ≠ key) :
    (es.find? fun e => e.key = key) = none :=
  List.find?_eq_none.mpr fun e he => by simpa using h e he

/-- There is no such entry to use. -/
theorem recencyStep_get_of_ne (h : ∀ e ∈ es, e.key ≠ key) : recencyStep es (.get key) = es := by
  rw [recencyStep, find?_eq_none_of_ne h]

/-- A new entry is put at the front. -/
theorem recencyStep_put_of_ne (h : ∀ e ∈ es, e.key ≠ key) :
    recencyStep es (.put key v) = ⟨key, v⟩ :: es := by
  rw [recencyStep, others_eq_self h]

/-- A use of an entry keeps the entries. -/
theorem recencyStep_get_perm (h : (es.map Entry.key).Nodup) (key : K) :
    (recencyStep es (.get key)).Perm es := by
  rw [recencyStep]
  cases hfind : es.find? fun e => e.key = key with
  | none => exact List.Perm.refl es
  | some e =>
    obtain ⟨es₁, es₂, rfl⟩ := List.append_of_mem (List.mem_of_find?_eq_some hfind)
    dsimp only
    rw [others_split h]
    exact List.perm_middle.symm

/-- An entry is used and removed. -/
theorem recencyStep_get_remove (h : (es.map Entry.key).Nodup) (he : e ∈ es) :
    recencyStep (recencyStep es (.get e.key)) (.remove e.key) = others es e.key := by
  obtain ⟨es₁, es₂, rfl⟩ := List.append_of_mem he
  have hmoved : recencyStep (es₁ ++ e :: es₂) (.get e.key) =
      e :: others (es₁ ++ e :: es₂) e.key := by
    rw [recencyStep, find?_split h]
  have hkeys := ((recencyStep_get_perm h e.key).map Entry.key).nodup_iff.mpr h
  rw [hmoved] at hkeys ⊢
  exact @others_split K V _ e [] _ hkeys

/-- A search from the end finds nothing if no value qualifies. -/
theorem Recalls.find?_reverse_none (h : Recalls ops es) (p : V → Bool) :
    es.reverse.find? (fun e => p e.value) = none ↔ ∀ k v, latest ops k = some v → p v = false := by
  rw [List.find?_eq_none]
  constructor
  · intro hnone k v hlatest
    simpa using hnone ⟨k, v⟩ (List.mem_reverse.mpr ((h.values k v).mpr hlatest))
  · intro hnone e he
    have hlatest := (h.values e.key e.value).mp (List.mem_reverse.mp he)
    rw [hnone _ _ hlatest]
    exact Bool.false_ne_true

/-- A search from the end finds the entry that was used longest ago among those that qualify. -/
theorem Recalls.find?_reverse_some (h : Recalls ops es) {p : V → Bool}
    (hfind : es.reverse.find? (fun e => p e.value) = some e) :
    p e.value = true ∧ latest ops e.key = some e.value ∧
      ∀ k v, latest ops k = some v → p v = true → k = e.key ∨ UsedAfter ops k e.key := by
  obtain ⟨hp, before, after, hsplit, hbefore⟩ := List.find?_eq_some_iff_append.mp hfind
  have hes : es = after.reverse ++ e :: before.reverse := by
    have hreverse := congrArg List.reverse hsplit
    simpa using hreverse
  have hmem : e ∈ es := by simp [hes]
  refine ⟨by simpa using hp, (h.values _ _).mp hmem, fun k v hlatest hv => ?_⟩
  have hkv := (h.values k v).mpr hlatest
  rw [hes, List.mem_append, List.mem_cons] at hkv
  obtain hafter | rfl | hbefore' := hkv
  · have horder := h.order
    rw [hes, List.pairwise_append] at horder
    exact .inr (horder.2.2 _ hafter e List.mem_cons_self)
  · exact .inl rfl
  · have hnot := hbefore _ (List.mem_reverse.mp hbefore')
    simp [hv] at hnot

end Miniob.Lib
