import Mathlib.Data.List.Nodup
import Mathlib.Data.List.Perm.Basic
import Mathlib.Order.Lattice

/-!
# Maps in the order of their keys

A map with one value for each key, as the list of its entries. That the keys increase is part of
the map.

* `find?`, `insert`, `erase`: lookup, insertion of a key that is not there, and removal.
* `dropWhile`: removal from the front, as long as the keys satisfy a condition.
* `entries_perm_insert`, `entries_perm_erase`: what the operations do to the entries, in any order.
-/

namespace Miniob.Lib

/-- A map. -/
structure OrderedMap (K V : Type) [LinearOrder K] where
  /-- The entries. -/
  entries : List (K × V)
  sorted : entries.Pairwise fun a b => a.1 < b.1

namespace OrderedMap

variable {K V : Type} [LinearOrder K]

/-! ## Operations -/

/-- The empty map. -/
def empty : OrderedMap K V := ⟨[], List.Pairwise.nil⟩

/-- The value of a key. -/
def find? (m : OrderedMap K V) (k : K) : Option V := (m.entries.find? fun e => e.1 = k).map Prod.snd

/-- An entry put at its place. -/
def place (e : K × V) : List (K × V) → List (K × V)
  | [] => [e]
  | a :: l => if e.1 < a.1 then e :: a :: l else a :: place e l

theorem place_perm (e : K × V) (l : List (K × V)) : (place e l).Perm (e :: l) := by
  induction l with
  | nil => exact List.Perm.refl _
  | cons a l ih =>
    rw [place]
    split
    · exact List.Perm.refl _
    · exact (ih.cons a).trans (List.Perm.swap e a l)

theorem sorted_place {e : K × V} {l : List (K × V)} (hl : l.Pairwise fun a b => a.1 < b.1)
    (he : ∀ a ∈ l, a.1 ≠ e.1) : (place e l).Pairwise fun a b => a.1 < b.1 := by
  induction l with
  | nil => exact List.pairwise_singleton _ _
  | cons a l ih =>
    obtain ⟨ha, hl⟩ := List.pairwise_cons.mp hl
    obtain ⟨hae, he⟩ := List.forall_mem_cons.mp he
    rw [place]
    split
    · rename_i hlt
      refine List.pairwise_cons.mpr ⟨?_, List.pairwise_cons.mpr ⟨ha, hl⟩⟩
      exact List.forall_mem_cons.mpr ⟨hlt, fun b hb => lt_trans hlt (ha b hb)⟩
    · rename_i hlt
      refine List.pairwise_cons.mpr ⟨fun b hb => ?_, ih hl he⟩
      rcases List.mem_cons.mp ((place_perm e l).mem_iff.mp hb) with rfl | hb
      · exact lt_of_le_of_ne (not_lt.mp hlt) hae
      · exact ha b hb

/-- An entry for a key that is not there. A key keeps the value it has. -/
def insert (m : OrderedMap K V) (k : K) (v : V) : Option (OrderedMap K V) :=
  if h : ∀ a ∈ m.entries, a.1 ≠ k then some ⟨place (k, v) m.entries, sorted_place m.sorted h⟩
  else none

/-- The map without a key. -/
def erase (m : OrderedMap K V) (k : K) : OrderedMap K V :=
  ⟨m.entries.filter fun e => e.1 ≠ k, m.sorted.filter _⟩

/-- The map without the entries in front of the first that does not satisfy `p`. -/
def dropWhile (m : OrderedMap K V) (p : K × V → Bool) : OrderedMap K V :=
  ⟨m.entries.dropWhile p, m.sorted.sublist (List.dropWhile_sublist p)⟩

/-! ## Entries -/

variable {m m' : OrderedMap K V} {k : K} {v : V}

/-- No key is there twice. -/
theorem nodup_keys (m : OrderedMap K V) : (m.entries.map Prod.fst).Nodup :=
  List.pairwise_map.mpr (m.sorted.imp fun h => h.ne)

theorem find?_eq_some_iff : m.find? k = some v ↔ (k, v) ∈ m.entries := by
  unfold find?
  rw [Option.map_eq_some_iff]
  constructor
  · rintro ⟨e, he, rfl⟩
    have hkey : e.1 = k := by simpa using List.find?_some he
    exact hkey ▸ List.mem_of_find?_eq_some he
  · intro hmem
    obtain ⟨e, he⟩ : ∃ e, (m.entries.find? fun e => e.1 = k) = some e := by
      rw [← Option.isSome_iff_exists, List.find?_isSome]
      exact ⟨_, hmem, by simp⟩
    have hkey : e.1 = k := by simpa using List.find?_some he
    exact ⟨e, he, by rw [List.inj_on_of_nodup_map m.nodup_keys (List.mem_of_find?_eq_some he) hmem hkey]⟩

/-- A key that is not there is inserted. -/
theorem insert_eq_none_iff : m.insert k v = none ↔ ∃ a ∈ m.entries, a.1 = k := by
  unfold insert
  split
  · rename_i h
    exact iff_of_false (Option.some_ne_none _) fun ⟨a, ha, hk⟩ => h a ha hk
  · rename_i h
    push Not at h
    exact iff_of_true rfl h

theorem entries_perm_insert (h : m.insert k v = some m') :
    m'.entries.Perm ((k, v) :: m.entries) := by
  unfold insert at h
  split at h
  · obtain rfl := Option.some.inj h
    exact place_perm _ _
  · cases h

theorem entries_perm_erase (h : (k, v) ∈ m.entries) :
    m.entries.Perm ((k, v) :: (m.erase k).entries) := by
  obtain ⟨a, b, hsplit⟩ := List.append_of_mem h
  have hne : ∀ e ∈ a ++ b, e.1 ≠ k := by
    have hsorted := m.sorted
    rw [hsplit, List.pairwise_append, List.pairwise_cons] at hsorted
    obtain ⟨-, ⟨hb, -⟩, ha⟩ := hsorted
    intro e he
    rcases List.mem_append.mp he with he | he
    · exact (ha e he _ List.mem_cons_self).ne
    · exact (hb e he).ne'
  have herase : (m.erase k).entries = a ++ b := by
    unfold erase
    dsimp only
    rw [hsplit, List.filter_append, List.filter_cons_of_neg (by simp), ← List.filter_append,
      List.filter_eq_self]
    exact fun e he => decide_eq_true (hne e he)
  rw [herase, hsplit]
  exact List.perm_middle

/-! ## The front -/

/-- If all entries in front of one that satisfies `p` do so, then the entries that satisfy `p` are
the first ones, and the others remain behind them. -/
theorem takeWhile_dropWhile_eq_filter {p : K × V → Bool}
    (hp : ∀ a ∈ m.entries, ∀ b ∈ m.entries, a.1 < b.1 → p b → p a) :
    m.entries.takeWhile p = m.entries.filter p ∧
      (m.dropWhile p).entries = m.entries.filter fun e => !p e := by
  obtain ⟨l, hl⟩ := m
  dsimp only [dropWhile] at hp ⊢
  induction l with
  | nil => exact ⟨rfl, rfl⟩
  | cons a l ih =>
    obtain ⟨ha, hl⟩ := List.pairwise_cons.mp hl
    obtain ⟨htake, hdrop⟩ := ih hl fun a ha b hb =>
      hp a (List.mem_cons_of_mem _ ha) b (List.mem_cons_of_mem _ hb)
    by_cases h : p a
    · rw [List.takeWhile_cons_of_pos h, List.filter_cons_of_pos h, htake,
        List.dropWhile_cons_of_pos h, List.filter_cons_of_neg (by simp [h]), hdrop]
      exact ⟨rfl, rfl⟩
    · have hnone : ∀ b ∈ a :: l, ¬ p b := by
        intro b hb hpb
        rcases List.mem_cons.mp hb with rfl | hb
        · exact h hpb
        · exact h (hp a List.mem_cons_self b (List.mem_cons_of_mem _ hb) (ha b hb) hpb)
      rw [List.takeWhile_cons_of_neg h, List.dropWhile_cons_of_neg h,
        List.filter_eq_nil_iff.mpr hnone,
        List.filter_eq_self.mpr fun b hb => by simpa using hnone b hb]
      exact ⟨rfl, rfl⟩

end OrderedMap

end Miniob.Lib
