import Mathlib.Data.List.Nodup
import Mathlib.Logic.Function.Basic

/-!
# Intrusive singly linked lists

A linked list whose links live in the elements themselves is a head pointer
together with a link function `next : α → Option α`. `Chain next hd l` says that
following the links from `hd` visits exactly the elements of `l`, in order, and
then stops.

The predicate is inductive, so a chain is finite by construction. It is also
deterministic (`Chain.unique`), and a finite deterministic chain cannot visit an
element twice (`Chain.nodup`): acyclicity needs no hypothesis of its own.

The operations a free list performs are `Chain.push` and `Chain.pop`; both also
write the link of the element they move, and `Chain.congr` is the frame rule for
writes outside the list.

`Reaches next hd a` says that following the links visits `a`, also when they run in
a circle and there is no chain. On a chain it is membership (`Chain.reaches_iff`).
Linking an element that is visited to the head closes a circle (`Reaches.not_chain`).
-/

namespace Jos

variable {α : Type*}

/-- Following `next` from `hd` visits exactly the elements of the list, in order. -/
inductive Chain (next : α → Option α) : Option α → List α → Prop
  | nil : Chain next none []
  | cons {a : α} {l : List α} : Chain next (next a) l → Chain next (some a) (a :: l)

namespace Chain

variable {next next' : α → Option α} {hd : Option α} {a : α} {l l' : List α}

/-- The empty head starts the empty chain only. -/
theorem none_iff : Chain next none l ↔ l = [] := by
  constructor
  · rintro ⟨⟩; rfl
  · rintro rfl; exact .nil

/-- A chain through a nonempty head starts with that head. -/
theorem some_iff : Chain next (some a) l ↔ ∃ t, l = a :: t ∧ Chain next (next a) t := by
  constructor
  · rintro ⟨⟩
    exact ⟨_, rfl, ‹_›⟩
  · rintro ⟨t, rfl, h⟩
    exact .cons h

/-- The head of a chain over `a :: l` is `a`. -/
theorem head_eq (h : Chain next hd (a :: l)) : hd = some a := by
  cases h; rfl

/-- The head of a chain is the first element. -/
theorem head_eq_head? (h : Chain next hd l) : hd = l.head? := by
  cases h <;> rfl

/-- The elements of a chain have the links that it goes by. -/
theorem links_unique {hd' : Option α} (h : Chain next hd l) (h' : Chain next' hd' l)
    (ha : a ∈ l) : next a = next' a := by
  induction h generalizing hd' with
  | nil => cases ha
  | @cons b t ht ih =>
    have ht' : Chain next' (next' b) t := by
      cases h'
      assumption
    obtain rfl | ha := List.mem_cons.mp ha
    · rw [ht.head_eq_head?, ht'.head_eq_head?]
    · exact ih ht' ha

/-- The chain over a list is empty only for the null head. -/
theorem head_none_iff (h : Chain next hd l) : hd = none ↔ l = [] := by
  cases h <;> simp

/-- The elements a chain visits are determined by its head. -/
theorem unique (h : Chain next hd l) (h' : Chain next hd l') : l = l' := by
  induction h generalizing l' with
  | nil => exact (none_iff.mp h').symm
  | cons _ ih =>
    obtain ⟨t, rfl, ht⟩ := some_iff.mp h'
    rw [ih ht]

/-- The tail of a chain is the chain from the linked element. -/
theorem tail (h : Chain next hd (a :: l)) : Chain next (next a) l := by
  cases h; assumption

/-- Every suffix of a chain is the chain of its own first element. -/
theorem drop_of_append {l₁ : List α} (h : Chain next hd (l₁ ++ a :: l)) :
    Chain next (some a) (a :: l) := by
  induction l₁ generalizing hd with
  | nil => rw [← h.head_eq]; exact h
  | cons b l₁ ih => exact ih h.tail

/-- The last link of a chain is null. -/
theorem link_last (h : Chain next hd (l ++ [a])) : next a = none :=
  h.drop_of_append.tail.head_none_iff.mpr rfl

/-- A chain visits no element twice: otherwise the chains from the two
occurrences, which are equal, would have different lengths. -/
theorem nodup (h : Chain next hd l) : l.Nodup := by
  induction h with
  | nil => exact List.nodup_nil
  | @cons b t ht ih =>
    refine List.nodup_cons.mpr ⟨?_, ih⟩
    intro hb
    -- a second occurrence of the head starts a chain of its own, shorter by `l₁`
    obtain ⟨l₁, l₂, rfl⟩ := List.append_of_mem hb
    have hlen := congrArg List.length ((Chain.cons ht).unique ht.drop_of_append)
    simp at hlen
    omega

/-- A chain is closed under its links. -/
theorem next_mem (h : Chain next hd l) {b : α} (ha : a ∈ l) (hb : next a = some b) : b ∈ l := by
  induction h with
  | nil => cases ha
  | @cons c t ht ih =>
    obtain rfl | ha := List.mem_cons.mp ha
    · rw [hb] at ht
      obtain ⟨u, rfl, -⟩ := some_iff.mp ht
      exact List.mem_cons_of_mem _ List.mem_cons_self
    · exact List.mem_cons_of_mem _ (ih ha)

/-- Links outside a chain are irrelevant to it. -/
theorem congr (h : Chain next hd l) (hn : ∀ b ∈ l, next' b = next b) :
    Chain next' hd l := by
  induction h with
  | nil => exact .nil
  | @cons b t _ ih =>
    refine .cons ?_
    rw [hn b List.mem_cons_self]
    exact ih fun c hc => hn c (List.mem_cons_of_mem _ hc)

section Update

variable [DecidableEq α]

/-- Linking a new element to the head pushes it. -/
theorem push (h : Chain next hd l) (ha : a ∉ l) :
    Chain (Function.update next a hd) (some a) (a :: l) := by
  refine .cons ?_
  rw [Function.update_self]
  exact h.congr fun b hb => Function.update_of_ne (ne_of_mem_of_not_mem hb ha) _ _

/-- Taking the first element off, and clearing its link, leaves the tail. -/
theorem pop (h : Chain next hd (a :: l)) :
    Chain (Function.update next a none) (next a) l := by
  have ha : a ∉ l := (List.nodup_cons.mp h.nodup).1
  exact h.tail.congr fun b hb => Function.update_of_ne (ne_of_mem_of_not_mem hb ha) _ _

end Update

end Chain

/-! ### Visiting an element -/

/-- Following `next` from `hd` visits the element. -/
inductive Reaches (next : α → Option α) : Option α → α → Prop
  | here {a : α} : Reaches next (some a) a
  | there {a b : α} : Reaches next (next a) b → Reaches next (some a) b

section Reaches

variable {next : α → Option α} {hd : Option α} {a : α} {l : List α}

theorem Chain.reaches_iff (h : Chain next hd l) : Reaches next hd a ↔ a ∈ l := by
  induction h with
  | nil =>
    constructor
    · rintro ⟨⟩
    · rintro ⟨⟩
  | @cons b t ht ih =>
    rw [List.mem_cons, ← ih]
    constructor
    · rintro (_ | h)
      · exact Or.inl rfl
      · exact Or.inr h
    · rintro (rfl | h)
      · exact .here
      · exact .there h

/-- What is visited satisfies every property of the head that the links pass on. -/
theorem Reaches.induct {P : α → Prop} (h : Reaches next hd a) (hhd : ∀ b, hd = some b → P b)
    (hnext : ∀ b c, next b = some c → P c) : P a := by
  induction h with
  | here => exact hhd _ rfl
  | there _ ih => exact ih (hnext _)

variable [DecidableEq α]

/-- The way to an element does not use its own link. -/
theorem Reaches.update (h : Reaches next hd a) (v : Option α) :
    Reaches (Function.update next a v) hd a := by
  induction h with
  | here => exact .here
  | @there b a hr ih =>
    by_cases hba : b = a
    · rw [hba]
      exact .here
    · refine .there ?_
      rw [Function.update_of_ne hba]
      exact ih

/-- Linking an element that is visited to the head closes a circle. -/
theorem Reaches.not_chain (h : Reaches next hd a) :
    ¬Chain (Function.update next a hd) (some a) l := by
  intro hc
  obtain ⟨t, rfl, ht⟩ := Chain.some_iff.mp hc
  have hmem : a ∈ t := by
    rw [Function.update_self] at ht
    exact ht.reaches_iff.mp (h.update hd)
  exact (List.nodup_cons.mp hc.nodup).1 hmem

end Reaches

end Jos
