import Mathlib.Data.List.Induction
import Mathlib.Logic.Function.Basic

/-!
# Doubly linked lists

The nodes of a list point to the one before them and to the one behind them, and there are pointers
to the first one and to the last one.

* `Links`: the pointers. `Linked` says that they are those of a list of nodes.
* `Path`: the nodes that are reached from a node. By `Linked.path_next` and `Linked.path_prev` these
  are all of them, from both ends.
* `pushFront`, `unlink`, `moveToFront`: the changes of the pointers. `linked_pushFront`,
  `linked_unlink` and `linked_moveToFront` say which list they make.

`Chain` is about a part of a list, between a node before it and a node behind it. A change at one
part leaves the others as they are.
-/

namespace Miniob.Lib

/-- The pointers of a doubly linked list. -/
structure Links (A : Type) where
  /-- The node before a node. -/
  prev : A → Option A
  /-- The node behind a node. -/
  next : A → Option A
  /-- The first node. -/
  front : Option A
  /-- The last node. -/
  tail : Option A

/-- The nodes that are reached by the steps of a function, up to one without a next. -/
inductive Path {A : Type} (step : A → Option A) : Option A → List A → Prop
  | nil : Path step none []
  | cons (a : A) (l : List A) : Path step (step a) l → Path step (some a) (a :: l)

namespace Links

variable {A : Type}

/-- No nodes. -/
def empty : Links A := ⟨fun _ => none, fun _ => none, none, none⟩

/-- The nodes are linked with each other, with a node before them and with a node behind them. -/
def Chain (s : Links A) : Option A → List A → Option A → Prop
  | _, [], _ => True
  | before, a :: l, behind =>
    s.prev a = before ∧ s.next a = l.head?.or behind ∧ s.Chain (some a) l behind

/-- The pointers are those of a list of nodes. -/
structure Linked (s : Links A) (l : List A) : Prop where
  nodup : l.Nodup
  front : s.front = l.head?
  tail : s.tail = l.getLast?
  chain : s.Chain none l none

variable {s s' : Links A} {before behind : Option A} {a : A} {l l₁ l₂ : List A}

theorem linked_empty : (empty : Links A).Linked [] := ⟨List.nodup_nil, rfl, rfl, trivial⟩

/-- Two parts of a list. By induction on the first. -/
theorem chain_append : s.Chain before (l₁ ++ l₂) behind ↔
    s.Chain before l₁ (l₂.head?.or behind) ∧ s.Chain (l₁.getLast?.or before) l₂ behind := by
  induction l₁ generalizing before with
  | nil => exact (and_iff_right trivial).symm
  | cons a l₁ ih =>
    have hhead : (l₁ ++ l₂).head?.or behind = l₁.head?.or (l₂.head?.or behind) := by
      rw [List.head?_append, Option.or_assoc]
    have hlast : (a :: l₁).getLast?.or before = l₁.getLast?.or (some a) := by
      rw [List.getLast?_cons]
      cases l₁.getLast? <;> rfl
    rw [List.cons_append, Chain, Chain, hhead, hlast, ih]
    tauto

/-- A part depends on the pointers of its nodes only. -/
theorem Chain.congr (h : s.Chain before l behind)
    (heq : ∀ a ∈ l, s'.prev a = s.prev a ∧ s'.next a = s.next a) : s'.Chain before l behind := by
  induction l generalizing before with
  | nil => trivial
  | cons a l ih =>
    obtain ⟨ha, hl⟩ := List.forall_mem_cons.mp heq
    obtain ⟨hprev, hnext, hchain⟩ := h
    exact ⟨ha.1.trans hprev, ha.2.trans hnext, ih hchain hl⟩

/-! ## The nodes -/

/-- From the first node on, the pointers lead to all nodes. -/
theorem Chain.path_next (h : s.Chain before l none) : Path s.next l.head? l := by
  induction l generalizing before with
  | nil => exact .nil
  | cons a l ih =>
    obtain ⟨-, hnext, hchain⟩ := h
    refine .cons a l ?_
    rw [hnext, Option.or_none]
    exact ih hchain

theorem Linked.path_next (h : s.Linked l) : Path s.next s.front l := by
  rw [h.front]
  exact h.chain.path_next

/-- From the last node on, the pointers lead to all nodes. By induction from the end. -/
theorem Chain.path_prev (h : s.Chain none l behind) : Path s.prev l.getLast? l.reverse := by
  induction l using List.reverseRecOn generalizing behind with
  | nil => exact .nil
  | append_singleton l a ih =>
    obtain ⟨hchain, hprev, -⟩ := chain_append.mp h
    rw [List.getLast?_concat, List.reverse_concat]
    refine .cons a _ ?_
    rw [hprev, Option.or_none]
    exact ih hchain

theorem Linked.path_prev (h : s.Linked l) : Path s.prev s.tail l.reverse := by
  rw [h.tail]
  exact h.chain.path_prev

/-- The pointers of a node. -/
theorem Linked.pointers (h : s.Linked (l₁ ++ a :: l₂)) :
    s.prev a = l₁.getLast? ∧ s.next a = l₂.head? := by
  obtain ⟨-, hprev, hnext, -⟩ := chain_append.mp h.chain
  rw [Option.or_none] at hprev hnext
  exact ⟨hprev, hnext⟩

/-- The node is neither before nor behind itself. -/
theorem Linked.neighbours_ne (h : s.Linked (l₁ ++ a :: l₂)) :
    l₁.getLast? ≠ some a ∧ l₂.head? ≠ some a := by
  obtain ⟨-, hnodup₂, hdisjoint⟩ := List.nodup_append.mp h.nodup
  constructor
  · exact fun heq => hdisjoint a (List.mem_of_getLast? heq) a List.mem_cons_self rfl
  · exact fun heq => (List.nodup_cons.mp hnodup₂).1 (List.mem_of_mem_head? heq)

theorem withEnds_eq (s : Links A) {front tail : Option A} (hfront : s.front = front)
    (htail : s.tail = tail) : { s with front := front, tail := tail } = s := by
  subst hfront htail
  rfl

/-! ## Changes -/

variable [DecidableEq A]

/-- The node before a node becomes another one. -/
def setPrev (s : Links A) (a : A) (prev : Option A) : Links A :=
  { s with prev := Function.update s.prev a prev }

/-- The node behind a node becomes another one. -/
def setNext (s : Links A) (a : A) (next : Option A) : Links A :=
  { s with next := Function.update s.next a next }

/-- The same, where there is a node. -/
def setPrevOf (s : Links A) (node prev : Option A) : Links A :=
  match node with
  | some a => s.setPrev a prev
  | none => s

/-- The same, where there is a node. -/
def setNextOf (s : Links A) (node next : Option A) : Links A :=
  match node with
  | some a => s.setNext a next
  | none => s

/-- Put a node at the front. -/
def pushFront (s : Links A) (a : A) : Links A :=
  let s₁ := if s.tail = none then { s with tail := some a } else s
  let s₂ := (s₁.setPrev a none).setNext a s₁.front
  { s₂.setPrevOf s₂.front (some a) with front := some a }

/-- Take a node out. -/
def unlink (s : Links A) (a : A) : Links A :=
  let s₁ := s.setNextOf (s.prev a) (s.next a)
  let s₂ := s₁.setPrevOf (s₁.next a) (s₁.prev a)
  let s₃ := if s₂.front = some a then { s₂ with front := s₂.next a } else s₂
  if s₃.tail = some a then { s₃ with tail := s₃.prev a } else s₃

/-- Move a node to the front, unless it is there. -/
def moveToFront (s : Links A) (a : A) : Links A :=
  if s.prev a = none then s
  else
    let s₁ := s.setNextOf (s.prev a) (s.next a)
    let s₂ := if s₁.next a = none then { s₁ with tail := s₁.prev a }
      else s₁.setPrevOf (s₁.next a) (s₁.prev a)
    let s₃ := (s₂.setPrev a none).setNext a s₂.front
    { s₃.setPrevOf s₃.front (some a) with front := some a }

/-! ## Parts that change -/

section change

variable {node pointer : Option A}

@[simp] theorem setPrevOf_next : (s.setPrevOf node pointer).next = s.next := by
  cases node <;> rfl

@[simp] theorem setPrevOf_front : (s.setPrevOf node pointer).front = s.front := by
  cases node <;> rfl

@[simp] theorem setPrevOf_tail : (s.setPrevOf node pointer).tail = s.tail := by
  cases node <;> rfl

@[simp] theorem setNextOf_prev : (s.setNextOf node pointer).prev = s.prev := by
  cases node <;> rfl

@[simp] theorem setNextOf_front : (s.setNextOf node pointer).front = s.front := by
  cases node <;> rfl

@[simp] theorem setNextOf_tail : (s.setNextOf node pointer).tail = s.tail := by
  cases node <;> rfl

theorem setPrevOf_prev_of_ne (h : node ≠ some a) :
    (s.setPrevOf node pointer).prev a = s.prev a := by
  cases node with
  | none => rfl
  | some b => exact Function.update_of_ne (fun heq => h (congrArg some heq.symm)) _ _

theorem setNextOf_next_of_ne (h : node ≠ some a) :
    (s.setNextOf node pointer).next a = s.next a := by
  cases node with
  | none => rfl
  | some b => exact Function.update_of_ne (fun heq => h (congrArg some heq.symm)) _ _

/-- A change at another node. -/
theorem Chain.setPrevOf_of_notMem (h : s.Chain before l behind) (hnode : ∀ a ∈ l, node ≠ some a) :
    (s.setPrevOf node pointer).Chain before l behind :=
  h.congr fun a ha => ⟨setPrevOf_prev_of_ne (hnode a ha), by rw [setPrevOf_next]⟩

/-- A change at another node. -/
theorem Chain.setNextOf_of_notMem (h : s.Chain before l behind) (hnode : ∀ a ∈ l, node ≠ some a) :
    (s.setNextOf node pointer).Chain before l behind :=
  h.congr fun a ha => ⟨by rw [setNextOf_prev], setNextOf_next_of_ne (hnode a ha)⟩

/-- The first node gets another one before it. -/
theorem Chain.setPrevOf_head (h : s.Chain before l behind) (hl : l.Nodup) :
    (s.setPrevOf l.head? pointer).Chain pointer l behind := by
  cases l with
  | nil => trivial
  | cons a l =>
    obtain ⟨-, hnext, hchain⟩ := h
    have ha := (List.nodup_cons.mp hl).1
    refine ⟨Function.update_self .., hnext, hchain.setPrevOf_of_notMem fun b hb heq => ?_⟩
    exact ha (Option.some.inj heq ▸ hb)

/-- The last node gets another one behind it. -/
theorem Chain.setNextOf_last (h : s.Chain before l behind) (hl : l.Nodup) :
    (s.setNextOf l.getLast? pointer).Chain before l pointer := by
  obtain rfl | ⟨l, a, rfl⟩ := List.eq_nil_or_concat l
  · trivial
  · rw [List.concat_eq_append] at h hl ⊢
    obtain ⟨hchain, hprev, -⟩ := chain_append.mp h
    have ha : a ∉ l := fun ha =>
      (List.nodup_append.mp hl).2.2 a ha a (List.mem_singleton_self a) rfl
    rw [List.getLast?_concat]
    refine chain_append.mpr ⟨hchain.setNextOf_of_notMem fun b hb heq => ?_, ?_, ?_, trivial⟩
    · exact ha (Option.some.inj heq ▸ hb)
    · rw [setNextOf_prev]
      exact hprev
    · exact Function.update_self ..

end change

/-! ## The lists that are made -/

/-- **A node at the front.** -/
theorem linked_pushFront (h : s.Linked l) (ha : a ∉ l) : (s.pushFront a).Linked (a :: l) := by
  have hhead : l.head? ≠ some a := fun heq => ha (List.mem_of_mem_head? heq)
  obtain ⟨t, ht, hprev, hnext, hfront, htail⟩ : ∃ t : Links A,
      t = (if s.tail = none then { s with tail := some a } else s) ∧ t.prev = s.prev ∧
        t.next = s.next ∧ t.front = l.head? ∧ t.tail = (a :: l).getLast? := by
    refine ⟨_, rfl, ?_, ?_, ?_, ?_⟩
    · split <;> rfl
    · split <;> rfl
    · split <;> exact h.front
    · rw [List.getLast?_cons, ← h.tail]
      cases htail : s.tail <;> simp [htail]
  have hchain : ((t.setPrev a none).setNext a t.front).Chain none l none := by
    refine h.chain.congr fun b hb => ?_
    have hne : b ≠ a := fun heq => ha (heq ▸ hb)
    rw [← hprev, ← hnext]
    exact ⟨Function.update_of_ne hne _ _, Function.update_of_ne hne _ _⟩
  unfold pushFront
  rw [← ht]
  refine ⟨List.nodup_cons.mpr ⟨ha, h.nodup⟩, rfl, ?_, ?_, ?_, ?_⟩
  · dsimp only
    rw [setPrevOf_tail]
    exact htail
  · dsimp only
    rw [setPrevOf_prev_of_ne (hfront.symm ▸ hhead)]
    exact Function.update_self ..
  · dsimp only
    rw [setPrevOf_next, Option.or_none, ← hfront]
    exact Function.update_self ..
  · refine Chain.congr (s := ((t.setPrev a none).setNext a t.front).setPrevOf l.head? (some a))
      (hchain.setPrevOf_head h.nodup) fun b _ => ?_
    rw [← hfront]
    exact ⟨rfl, rfl⟩

/-- What the changes at the neighbours of a node make. -/
theorem chain_bypass (h : s.Linked (l₁ ++ a :: l₂)) :
    ((s.setNextOf l₁.getLast? l₂.head?).setPrevOf l₂.head? l₁.getLast?).Chain none (l₁ ++ l₂)
      none := by
  obtain ⟨hchain₁, -, -, hchain₂⟩ := chain_append.mp h.chain
  obtain ⟨hnodup₁, hnodup₂, hdisjoint⟩ := List.nodup_append.mp h.nodup
  have hnodup₂ := (List.nodup_cons.mp hnodup₂).2
  have hne : ∀ b ∈ l₁, ∀ c ∈ l₂, b ≠ c := fun b hb c hc => hdisjoint b hb c (.tail _ hc)
  rw [chain_append, Option.or_none, Option.or_none]
  constructor
  · refine (hchain₁.setNextOf_last hnodup₁).setPrevOf_of_notMem fun b hb heq => ?_
    exact hne b hb b (List.mem_of_mem_head? heq) rfl
  · refine (hchain₂.setNextOf_of_notMem fun b hb heq => ?_).setPrevOf_head hnodup₂
    exact hne b (List.mem_of_getLast? heq) b hb rfl

/-- The ends, if they are the node that is taken out. -/
theorem replaceEnds_eq (s : Links A) {prev next : Option A} (hprev : s.prev a = prev)
    (hnext : s.next a = next) :
    (let s₁ := if s.front = some a then { s with front := s.next a } else s
    if s₁.tail = some a then { s₁ with tail := s₁.prev a } else s₁) =
      { s with
        front := if s.front = some a then next else s.front
        tail := if s.tail = some a then prev else s.tail } := by
  subst hprev hnext
  dsimp only
  split_ifs <;> rfl

/-- What taking a node out changes. -/
theorem unlink_eq (h : s.Linked (l₁ ++ a :: l₂)) :
    s.unlink a = { (s.setNextOf l₁.getLast? l₂.head?).setPrevOf l₂.head? l₁.getLast? with
      front := if s.front = some a then l₂.head? else s.front
      tail := if s.tail = some a then l₁.getLast? else s.tail } := by
  obtain ⟨hprev, hnext⟩ := h.pointers
  obtain ⟨hlast, hhead⟩ := h.neighbours_ne
  have hprev₁ : (s.setNextOf l₁.getLast? l₂.head?).prev a = l₁.getLast? := by
    rw [setNextOf_prev, hprev]
  have hnext₁ : (s.setNextOf l₁.getLast? l₂.head?).next a = l₂.head? := by
    rw [setNextOf_next_of_ne hlast, hnext]
  have hnext₂ : ((s.setNextOf l₁.getLast? l₂.head?).setPrevOf l₂.head? l₁.getLast?).next a =
      l₂.head? := by
    rw [setPrevOf_next, hnext₁]
  unfold unlink
  dsimp only
  rw [hprev, hnext, hprev₁, hnext₁]
  refine (replaceEnds_eq _ ((setPrevOf_prev_of_ne hhead).trans hprev₁) hnext₂).trans ?_
  rw [setPrevOf_front, setNextOf_front, setPrevOf_tail, setNextOf_tail]

/-- **A node is taken out.** -/
theorem linked_unlink (h : s.Linked (l₁ ++ a :: l₂)) : (s.unlink a).Linked (l₁ ++ l₂) := by
  rw [unlink_eq h]
  refine ⟨?_, ?_, ?_, (chain_bypass h).congr fun _ _ => ⟨rfl, rfl⟩⟩
  · exact h.nodup.sublist ((List.sublist_cons_self a l₂).append_left l₁)
  · dsimp only
    rw [h.front]
    cases l₁ with
    | nil => exact if_pos rfl
    | cons b l₁ =>
      have hne : b ≠ a := fun heq =>
        (List.nodup_cons.mp h.nodup).1 (heq ▸ List.mem_append_right _ List.mem_cons_self)
      exact if_neg fun heq => hne (Option.some.inj heq)
  · dsimp only
    rw [h.tail]
    obtain rfl | ⟨l₂, b, rfl⟩ := List.eq_nil_or_concat l₂
    · rw [List.getLast?_concat, if_pos rfl, List.append_nil]
    · have hne : b ≠ a := fun heq => by
        have hnodup := (List.nodup_append.mp h.nodup).2.1
        rw [heq] at hnodup
        exact (List.nodup_cons.mp hnodup).1 (by simp)
      rw [List.concat_eq_append, ← List.cons_append, ← List.append_assoc, List.getLast?_concat,
        if_neg fun heq => hne (Option.some.inj heq), ← List.append_assoc, List.getLast?_concat]

/-- A node that is not at the front is taken out and put there. -/
theorem moveToFront_eq (h : s.Linked (l₁ ++ a :: l₂)) (hl : l₁ ≠ []) :
    s.moveToFront a = (s.unlink a).pushFront a := by
  obtain ⟨hprev, hnext⟩ := h.pointers
  obtain ⟨hlast, hhead⟩ := h.neighbours_ne
  have hprev₁ : (s.setNextOf l₁.getLast? l₂.head?).prev a = l₁.getLast? := by
    rw [setNextOf_prev, hprev]
  have hnext₁ : (s.setNextOf l₁.getLast? l₂.head?).next a = l₂.head? := by
    rw [setNextOf_next_of_ne hlast, hnext]
  have hne : l₁.getLast? ≠ none := fun heq => hl (List.getLast?_eq_none_iff.mp heq)
  have hfront : s.front ≠ some a := by
    obtain ⟨b, l₁, rfl⟩ := List.exists_cons_of_ne_nil hl
    intro heq
    rw [h.front] at heq
    have hba : b = a := Option.some.inj heq
    exact (List.nodup_cons.mp h.nodup).1 (hba ▸ List.mem_append_right _ List.mem_cons_self)
  rw [unlink_eq h, if_neg hfront]
  unfold moveToFront pushFront
  dsimp only
  rw [hprev, hnext, if_neg hne, hprev₁, hnext₁]
  obtain rfl | ⟨l₂, b, rfl⟩ := List.eq_nil_or_concat l₂
  · have htail : s.tail = some a := by rw [h.tail, List.getLast?_concat]
    rw [List.head?_nil, if_pos rfl, if_pos htail, if_neg hne]
    simp [setPrevOf]
  · have htail : s.tail = some b := by
      rw [h.tail, List.concat_eq_append, ← List.cons_append, ← List.append_assoc,
        List.getLast?_concat]
    have hba : b ≠ a := fun heq => by
      have hnodup := (List.nodup_append.mp h.nodup).2.1
      rw [heq] at hnodup
      exact (List.nodup_cons.mp hnodup).1 (by simp)
    have hsome : s.tail ≠ some a := fun heq => hba (Option.some.inj (htail.symm.trans heq))
    have hnone : s.tail ≠ none := fun heq => nomatch htail.symm.trans heq
    have hnext₂ : (l₂.concat b).head? ≠ none := by simp
    have hends := withEnds_eq
      ((s.setNextOf l₁.getLast? (l₂.concat b).head?).setPrevOf (l₂.concat b).head? l₁.getLast?)
      (setPrevOf_front.trans setNextOf_front) (setPrevOf_tail.trans setNextOf_tail)
    rw [if_neg hsome, if_neg hnone, if_neg hnext₂, hends]

/-- **A node is moved to the front.** -/
theorem linked_moveToFront (h : s.Linked (l₁ ++ a :: l₂)) :
    (s.moveToFront a).Linked (a :: (l₁ ++ l₂)) := by
  by_cases hl : l₁ = []
  · subst hl
    unfold moveToFront
    have hprev : s.prev a = none := h.pointers.1
    rw [if_pos hprev]
    exact h
  · rw [moveToFront_eq h hl]
    have hnodup := List.perm_middle.nodup_iff.mp h.nodup
    exact linked_pushFront (linked_unlink h) (List.nodup_cons.mp hnodup).1

end Links

end Miniob.Lib
