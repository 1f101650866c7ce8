import Mathlib.Data.List.DropRight
import Mathlib.Data.List.GetD
import Mathlib.Data.List.Infix
import Mathlib.Data.List.TakeWhile
import Miniob.Basic

/-!
# Cutting strings

`strip` looks for the first and for the last character of a string that is not white space, and
`split_string` cuts a string at its delimiters.

* `strip`: the loops of the source. They read outside of a blank string (`strip_eq_none_iff`)
  and trim all the others (`stripTrims_iff`).
* `splitString`: empty parts are left out, and a position is an `int`.
* `splitString_intercalate_iff`: which lists of strings are found again after they have been joined.

A string is a list of bytes. An exception and a read outside of the string are `none`.
-/

namespace Miniob.Common

/-! ## White space -/

/-- Named, so that membership is decided by the same term in every module. -/
instance lawfulBEqByte : LawfulBEq (BitVec 8) := inferInstance

/-- The characters of a text as bytes. -/
def textBytes (s : String) : List (BitVec 8) := s.toList.map fun c => BitVec.ofNat 8 c.toNat

/-- White space among bytes. -/
def isspaceByte (c : BitVec 8) : Bool := isspace (Char.ofNat c.toNat)

/-- The loop from the end of the string. It does not end at the first character.
Source: `string.cpp`, `strip` -/
def stripTail (s : List (BitVec 8)) (head : ℕ) : ℕ → Option ℕ
  | 0 => if isspaceByte (s.getD 0 0) && 0 ≠ head then none else some 0
  | tail + 1 =>
    if isspaceByte (s.getD (tail + 1) 0) && tail + 1 ≠ head then stripTail s head tail
    else some (tail + 1)

/-- Behind its last character a string has a zero, which is not white space.
Source: `string.cpp`, `strip` -/
def strip (s : List (BitVec 8)) : Option (List (BitVec 8)) := do
  let head := (s.takeWhile isspaceByte).length
  if s.length = 0 then none
  else
    let tail ← stripTail s head (s.length - 1)
    return (s.drop head).take (tail - head + 1)

/-! ## Parts -/

/-- The position of a delimiter is an `int`: `-1` is taken for none, and from another negative one
on there is no substring. Source: `string.cpp`, `split_string` -/
def splitString (delim s : List (BitVec 8)) : Option (List (List (BitVec 8))) :=
  match _h : s.findIdx? fun c => c ∈ delim with
  | none => some (if 0 < s.length then [s] else [])
  | some pos =>
    let cutAt := wrap32 pos
    if cutAt = -1 then some (if 0 < s.length then [s] else [])
    else if cutAt < 0 then none
    else do
      let results ← splitString delim (s.drop (cutAt.toNat + 1))
      return (if 0 < cutAt then [s.take cutAt.toNat] else []) ++ results
  termination_by s.length
  decreasing_by
    have hpos := (List.findIdx?_eq_some_iff_getElem.mp _h).1
    rw [List.length_drop]
    omega

/-! ## Stripping -/

variable {s a b : List (BitVec 8)} {head tail : ℕ}

/-- The loop reads outside of the string if it finds white space only. By induction on the
position. -/
theorem stripTail_eq_none_iff :
    stripTail s head tail = none ↔ ∀ i ≤ tail, isspaceByte (s.getD i 0) ∧ i ≠ head := by
  induction tail with
  | zero =>
    rw [stripTail]
    simp
  | succ tail ih =>
    have hsplit : (∀ i ≤ tail + 1, isspaceByte (s.getD i 0) ∧ i ≠ head) ↔
        (isspaceByte (s.getD (tail + 1) 0) ∧ tail + 1 ≠ head) ∧
          ∀ i ≤ tail, isspaceByte (s.getD i 0) ∧ i ≠ head := by
      constructor
      · exact fun h => ⟨h _ le_rfl, fun i hi => h i (by omega)⟩
      · rintro ⟨hlast, h⟩ i hi
        obtain rfl | hlt := Nat.eq_or_lt_of_le hi
        · exact hlast
        · exact h i (by omega)
    rw [stripTail, hsplit, ← ih]
    split_ifs with hspace
    · exact (and_iff_right (by simpa using hspace)).symm
    · exact iff_of_false (by simp) fun h => hspace (by simpa using h.1)

/-- **Blank strings.** Exactly these are read outside of their characters. -/
theorem strip_eq_none_iff : strip s = none ↔ ∀ c ∈ s, isspaceByte c := by
  unfold strip
  dsimp only
  by_cases hs : s.length = 0
  · rw [if_pos hs, List.length_eq_zero_iff.mp hs]
    exact iff_of_true rfl (List.forall_mem_nil _)
  rw [if_neg hs, Option.bind_eq_bind, Option.bind_eq_none_iff]
  constructor
  · intro h c hc
    have hnone : stripTail s (s.takeWhile isspaceByte).length (s.length - 1) = none := by
      by_contra hne
      obtain ⟨tail, htail⟩ := Option.ne_none_iff_exists'.mp hne
      exact absurd (h tail htail) (Option.some_ne_none _)
    obtain ⟨i, hi, rfl⟩ := List.getElem_of_mem hc
    have hspace := (stripTail_eq_none_iff.mp hnone i (by omega)).1
    rwa [List.getD_eq_getElem _ _ hi] at hspace
  · intro h tail htail
    have hself : s.takeWhile isspaceByte = s := List.takeWhile_eq_self_iff.mpr h
    have hnone : stripTail s s.length (s.length - 1) = none := by
      refine stripTail_eq_none_iff.mpr fun i hi => ⟨?_, by omega⟩
      rw [List.getD_eq_getElem _ _ (by omega)]
      exact h _ (List.getElem_mem _)
    rw [hself, hnone] at htail
    cases htail

/-! ## Trimming -/

section trim

variable {m t : List (BitVec 8)}

/-- A string that neither starts nor ends with white space. -/
structure Trimmed (s : List (BitVec 8)) : Prop where
  head : ∀ c ∈ s.head?, isspaceByte c = false
  getLast : ∀ c ∈ s.getLast?, isspaceByte c = false

/-- The longest such part of a string: all of them are parts of it. -/
structure LongestTrimmed (s m : List (BitVec 8)) : Prop where
  isInfix : m <:+: s
  trimmed : Trimmed m
  longest : ∀ t, t <:+: s → Trimmed t → t <:+: m

/-- `strip` ends within the string, leaves the longest trimmed part of it, and leaves that as it
is. -/
def StripTrims (s : List (BitVec 8)) : Prop :=
  ∃ m, strip s = some m ∧ LongestTrimmed s m ∧ strip m = some m

/-- White space in front of a string, and a trimmed string. -/
theorem Trimmed.eq_nil_of_head (ht : Trimmed t) (hne : t ≠ []) {c q r : List (BitVec 8)}
    (hc : ∀ x ∈ c, isspaceByte x) (h : t ++ q = c ++ r) : c = [] := by
  obtain ⟨x, t, rfl⟩ := List.exists_cons_of_ne_nil hne
  cases c with
  | nil => rfl
  | cons y c =>
    obtain rfl : x = y := (List.cons.inj h).1
    exact absurd (ht.head x rfl) (by simp [hc x List.mem_cons_self])

/-- White space behind a string, and a trimmed string. -/
theorem Trimmed.eq_nil_of_getLast (ht : Trimmed t) (hne : t ≠ []) {c q r : List (BitVec 8)}
    (hc : ∀ x ∈ c, isspaceByte x) (h : q ++ t = r ++ c) : c = [] := by
  rcases List.eq_nil_or_concat' c with hnil | ⟨c, y, rfl⟩
  · exact hnil
  · have hlast : t.getLast? = some y := by
      have := congrArg List.getLast? h
      rwa [List.getLast?_append_of_ne_nil _ hne, ← List.append_assoc,
        List.getLast?_concat] at this
    exact absurd (ht.getLast y hlast) (by simp [hc y (by simp)])

/-- A trimmed string with white space around it. -/
theorem Trimmed.longestTrimmed (hm : Trimmed m) (ha : ∀ c ∈ a, isspaceByte c)
    (hb : ∀ c ∈ b, isspaceByte c) : LongestTrimmed (a ++ (m ++ b)) m := by
  refine ⟨List.infix_append' _ _ _, hm, ?_⟩
  rintro t ⟨p, q, hpart⟩ ht
  by_cases hne : t = []
  · exact hne ▸ List.nil_infix
  have hfront : ∃ p', p' ++ t ++ q = m ++ b := by
    rw [List.append_assoc, List.append_eq_append_iff] at hpart
    obtain ⟨c, rfl, hrest⟩ | ⟨c, -, hrest⟩ := hpart
    · obtain rfl := ht.eq_nil_of_head hne (fun x hx => ha x (List.mem_append_right _ hx)) hrest
      exact ⟨[], by simpa using hrest⟩
    · exact ⟨c, by rw [hrest, List.append_assoc]⟩
  obtain ⟨p', hrest⟩ := hfront
  rw [List.append_eq_append_iff] at hrest
  obtain ⟨c, rfl, -⟩ | ⟨c, hm', rfl⟩ := hrest
  · exact ⟨p', c, rfl⟩
  · obtain rfl := ht.eq_nil_of_getLast hne (fun x hx => hb x (List.mem_append_left _ hx)) hm'
    exact ⟨p', [], by simpa using hm'⟩

/-- A string with a character that is not white space, cut at its white space. -/
theorem exists_trimmed (h : ∃ c ∈ s, isspaceByte c = false) :
    ∃ a m b, s = a ++ (m ++ b) ∧ Trimmed m ∧ m ≠ [] ∧ (∀ c ∈ a, isspaceByte c) ∧
      ∀ c ∈ b, isspaceByte c := by
  have hsplit := List.rdropWhile_append_rtakeWhile (p := isspaceByte)
    (l := s.dropWhile isspaceByte)
  have hne : (s.dropWhile isspaceByte).rdropWhile isspaceByte ≠ [] := by
    intro hnil
    obtain ⟨c, hc, hspace⟩ := h
    have hall := List.rdropWhile_eq_nil_iff.mp hnil
    rw [← List.takeWhile_append_dropWhile (p := isspaceByte) (l := s), List.mem_append] at hc
    rcases hc with hc | hc
    · exact absurd (List.mem_takeWhile_imp hc) (by simp [hspace])
    · exact absurd (hall c hc) (by simp [hspace])
  refine ⟨s.takeWhile isspaceByte, _, (s.dropWhile isspaceByte).rtakeWhile isspaceByte, ?_,
    ⟨?_, ?_⟩, hne, fun c hc => List.mem_takeWhile_imp hc, fun c hc => List.mem_rtakeWhile_imp hc⟩
  · rw [hsplit, List.takeWhile_append_dropWhile]
  · intro c hc
    have hhead := List.head?_dropWhile_not isspaceByte s
    rw [← hsplit, List.head?_append_of_ne_nil _ hne, Option.mem_def.mp hc] at hhead
    exact hhead
  · intro c hc
    have hlast := List.rdropWhile_last_not isspaceByte _ hne
    rw [List.getLast?_eq_getLast_of_ne_nil hne] at hc
    obtain rfl := Option.some.inj hc
    simpa using hlast

/-- The loop from the end stops at the last character that is not white space. By induction on the
position. -/
theorem stripTail_eq_some {i : ℕ} (hle : i ≤ tail) (hstop : isspaceByte (s.getD i 0) = false)
    (hspace : ∀ j, i < j → j ≤ tail → isspaceByte (s.getD j 0) ∧ j ≠ head) :
    stripTail s head tail = some i := by
  induction tail with
  | zero =>
    obtain rfl := Nat.le_zero.mp hle
    rw [stripTail, hstop]
    rfl
  | succ tail ih =>
    rw [stripTail]
    obtain rfl | hlt := Nat.eq_or_lt_of_le hle
    · rw [hstop]
      rfl
    · obtain ⟨hlast, hhead⟩ := hspace (tail + 1) (by omega) le_rfl
      rw [hlast, Bool.true_and, if_pos (by simpa using hhead)]
      exact ih (by omega) fun j hj hjt => hspace j hj (by omega)

/-- The white space around a trimmed string is cut off. -/
theorem strip_append (hm : Trimmed m) (hne : m ≠ []) (ha : ∀ c ∈ a, isspaceByte c)
    (hb : ∀ c ∈ b, isspaceByte c) : strip (a ++ (m ++ b)) = some m := by
  have hpos := List.length_pos_of_ne_nil hne
  have hhead : (a ++ (m ++ b)).takeWhile isspaceByte = a := by
    obtain ⟨x, m, rfl⟩ := List.exists_cons_of_ne_nil hne
    rw [List.takeWhile_append_of_pos ha, List.cons_append, List.takeWhile_cons_of_neg]
    · exact List.append_nil a
    · simp [hm.head x rfl]
  have htail : stripTail (a ++ (m ++ b)) a.length ((a ++ (m ++ b)).length - 1) =
      some (a.length + (m.length - 1)) := by
    refine stripTail_eq_some ?_ ?_ fun j hj hlt => ?_
    · simp only [List.length_append]
      omega
    · rw [List.getD_append_right _ _ _ _ (by omega), Nat.add_sub_cancel_left,
        List.getD_append _ _ _ _ (by omega), List.getD_eq_getElem _ _ (by omega)]
      exact hm.getLast _ (by rw [List.getLast?_eq_getElem?, List.getElem?_eq_getElem (by omega)]; rfl)
    · simp only [List.length_append] at hlt
      rw [List.getD_append_right _ _ _ _ (by omega), List.getD_append_right _ _ _ _ (by omega),
        List.getD_eq_getElem _ _ (by omega)]
      exact ⟨hb _ (List.getElem_mem _), by omega⟩
  unfold strip
  rw [hhead, if_neg (by simp [hne]), htail]
  simp only [Option.bind_eq_bind, Option.bind_some, List.drop_left]
  rw [Nat.add_sub_cancel_left, Nat.sub_add_cancel hpos, List.take_left]
  rfl

/-- **When `strip` trims**: exactly the strings with a character that is not white space. -/
theorem stripTrims_iff : StripTrims s ↔ ∃ c ∈ s, isspaceByte c = false := by
  constructor
  · rintro ⟨m, hm, -⟩
    by_contra h
    push Not at h
    rw [strip_eq_none_iff.mpr fun c hc => by simpa using h c hc] at hm
    cases hm
  · intro h
    obtain ⟨a, m, b, rfl, hm, hne, ha, hb⟩ := exists_trimmed h
    refine ⟨m, strip_append hm hne ha hb, hm.longestTrimmed ha hb, ?_⟩
    simpa using strip_append (a := []) (b := []) hm hne (by simp) (by simp)

/-- The empty string has no last character, and the loop passes over the first of two blanks. -/
theorem blank_not_stripTrims : ¬ StripTrims [] ∧ ¬ StripTrims (textBytes "  ") := by
  constructor
  · rintro ⟨m, hm, -⟩
    exact nomatch hm
  · rintro ⟨m, hm, -⟩
    have hnone : strip (textBytes "  ") = none := by decide
    rw [hnone] at hm
    cases hm

end trim

/-! ## Splitting -/

section split

variable {d : BitVec 8} {results fields : List (List (BitVec 8))}

/-- The position of the first delimiter. -/
theorem findIdx?_delim (ha : d ∉ a) (b : List (BitVec 8)) :
    (a ++ d :: b).findIdx? (fun c => c ∈ [d]) = some a.length := by
  rw [List.findIdx?_append, List.findIdx?_eq_none_iff.mpr]
  · simp [List.findIdx?_cons]
  · intro c hc
    simpa using fun h : c = d => ha (h ▸ hc)

/-- A string without delimiters. -/
theorem splitString_of_notMem (ha : d ∉ a) :
    splitString [d] a = some (if 0 < a.length then [a] else []) := by
  have hnone : a.findIdx? (fun c => c ∈ [d]) = none := by
    rw [List.findIdx?_eq_none_iff]
    intro c hc
    simpa using fun h : c = d => ha (h ▸ hc)
  rw [splitString.eq_def]
  split
  · rfl
  · rename_i pos hpos
    exact nomatch hnone.symm.trans hpos

/-- The string at its first delimiter. -/
theorem splitString_delim (ha : d ∉ a) (b : List (BitVec 8)) :
    splitString [d] (a ++ d :: b) =
      if wrap32 a.length = -1 then some [a ++ d :: b]
      else if wrap32 a.length < 0 then none
      else (splitString [d] ((a ++ d :: b).drop ((wrap32 a.length).toNat + 1))).map fun results =>
        (if 0 < wrap32 a.length then [(a ++ d :: b).take (wrap32 a.length).toNat] else []) ++
          results := by
  have hfind := findIdx?_delim ha b
  rw [splitString.eq_def]
  split
  · rename_i hnone
    exact nomatch hnone.symm.trans hfind
  · rename_i pos hpos
    obtain rfl := Option.some.inj (hpos.symm.trans hfind)
    dsimp only
    rw [if_pos (by simp : 0 < (a ++ d :: b).length)]
    split_ifs
    · rfl
    · rfl
    all_goals
      cases splitString [d] ((a ++ d :: b).drop ((wrap32 a.length).toNat + 1)) <;> rfl

/-- The part before the first delimiter, if its length is an `int`. -/
theorem splitString_append (ha : d ∉ a) (hlen : a.length < 2 ^ 31) (b : List (BitVec 8)) :
    splitString [d] (a ++ d :: b) =
      (splitString [d] b).map ((if 0 < a.length then [a] else []) ++ ·) := by
  have hcut : wrap32 a.length = a.length := wrap32_eq (by omega) (by omega)
  rw [splitString_delim ha, hcut, if_neg (by omega), if_neg (by omega), Int.toNat_natCast,
    List.take_left, List.drop_append, List.drop_of_length_le (by omega)]
  simp

/-- A part that is too long for an `int` is not found: the position is cut off, or it is taken for
none at once or one character further on. -/
theorem head?_splitString (ha : d ∉ a) (hlen : 2 ^ 31 ≤ a.length) {b : List (BitVec 8)}
    (h : splitString [d] (a ++ d :: b) = some results) : results.head? ≠ some a := by
  have hdelim : d ∈ a ++ d :: b := List.mem_append_right _ List.mem_cons_self
  have hlt : wrap32 a.length < 2 ^ 31 := by
    unfold wrap32
    rw [Int.bmod_def]
    split <;> omega
  rw [splitString_delim ha] at h
  split_ifs at h with hnone hneg hpos
  · obtain rfl := Option.some.inj h
    intro heq
    exact ha (Option.some.inj heq ▸ hdelim)
  · obtain ⟨rest, -, rfl⟩ := Option.map_eq_some_iff.mp h
    intro heq
    have hlength := congrArg List.length (Option.some.inj heq)
    rw [List.length_take, List.length_append] at hlength
    omega
  · have hzero : wrap32 a.length = 0 := by omega
    have hne : a ≠ [] := List.ne_nil_of_length_pos (by omega)
    obtain ⟨x, a', rfl⟩ := List.exists_cons_of_ne_nil hne
    have ha' : d ∉ a' := fun hmem => ha (List.mem_cons_of_mem _ hmem)
    have hlast : wrap32 a'.length = -1 := by
      unfold wrap32 at hzero ⊢
      rw [Int.bmod_def] at hzero ⊢
      rw [List.length_cons] at hzero
      split at hzero <;> split <;> omega
    rw [hzero, Int.toNat_zero, List.cons_append, Nat.zero_add, List.drop_one, List.tail_cons,
      splitString_delim ha', if_pos hlast] at h
    obtain rfl := Option.some.inj h
    intro heq
    exact ha (Option.some.inj heq ▸ List.mem_append_right _ List.mem_cons_self)

/-- No part is empty. -/
theorem ne_nil_of_mem_splitString {delim : List (BitVec 8)}
    (h : splitString delim s = some results) : ∀ part ∈ results, part ≠ [] := by
  have hwhole : ∀ s : List (BitVec 8), ∀ part ∈ (if 0 < s.length then [s] else []), part ≠ [] := by
    intro s part hpart
    split_ifs at hpart with hlen
    · rw [List.mem_singleton.mp hpart]
      exact List.ne_nil_of_length_pos hlen
    · exact absurd hpart List.not_mem_nil
  fun_induction splitString delim s generalizing results with
  | case1 s hnone =>
    obtain rfl := Option.some.inj h
    exact hwhole s
  | case2 s pos hpos cutAt =>
    obtain rfl := Option.some.inj h
    exact hwhole s
  | case3 s pos hpos cutAt hcut => cases h
  | case4 s pos hpos cutAt hcut hneg =>
    rename_i ih
    obtain ⟨rest, hrest, heq⟩ := Option.bind_eq_some_iff.mp h
    obtain rfl := Option.some.inj heq
    refine List.forall_mem_append.mpr ⟨fun part hpart => ?_, ih hrest⟩
    split_ifs at hpart with hlen
    · have hlt := (List.findIdx?_eq_some_iff_getElem.mp hpos).1
      rw [List.mem_singleton.mp hpart]
      refine List.ne_nil_of_length_pos ?_
      rw [List.length_take]
      omega
    · exact absurd hpart List.not_mem_nil

/-- **Which strings are found again** after they have been joined: none of them is empty, and the
lengths of all but the last are an `int`. By induction on the strings. -/
theorem splitString_intercalate_iff (hne : fields ≠ []) (hd : ∀ f ∈ fields, d ∉ f) :
    splitString [d] (List.intercalate [d] fields) = some fields ↔
      (∀ f ∈ fields, f ≠ []) ∧ ∀ f ∈ fields.dropLast, f.length < 2 ^ 31 := by
  induction fields with
  | nil => exact absurd rfl hne
  | cons f fields ih =>
    obtain ⟨hf, hd⟩ := List.forall_mem_cons.mp hd
    cases fields with
    | nil =>
      rw [List.intercalate_singleton, splitString_of_notMem hf]
      by_cases hlen : 0 < f.length
      · simp [hlen, List.ne_nil_of_length_pos hlen]
      · have hnil : f = [] := List.length_eq_zero_iff.mp (by omega)
        simp [hnil]
    | cons g fields =>
      have ih := ih (List.cons_ne_nil _ _) hd
      rw [List.intercalate_cons_cons, List.append_assoc, List.singleton_append,
        List.dropLast_cons_cons]
      by_cases hlen : f.length < 2 ^ 31
      · by_cases hpos : 0 < f.length
        · have hcons : (splitString [d] (List.intercalate [d] (g :: fields))).map
              ([f] ++ ·) = some (f :: g :: fields) ↔
                splitString [d] (List.intercalate [d] (g :: fields)) = some (g :: fields) := by
            simp [Option.map_eq_some_iff]
          rw [splitString_append hf hlen, if_pos hpos, hcons, ih, List.forall_mem_cons (a := f),
            List.forall_mem_cons (a := f), and_iff_right (List.ne_nil_of_length_pos hpos),
            and_iff_right hlen]
        · have hnil : f = [] := List.length_eq_zero_iff.mp (by omega)
          exact iff_of_false (fun h => ne_nil_of_mem_splitString h f List.mem_cons_self hnil)
            fun h => h.1 f List.mem_cons_self hnil
      · refine iff_of_false (fun h => ?_) fun h => hlen (h.2 f List.mem_cons_self)
        exact head?_splitString hf (by omega) h rfl

end split

end Miniob.Common
