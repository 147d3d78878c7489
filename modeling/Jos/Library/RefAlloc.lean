import Jos.Library.Chain
import Jos.Library.RefCount
import Mathlib.Data.BitVec

/-!
# Reference-counted allocation

A pool of objects, each with a link for the free list and a `w`-bit reference
counter, and a family of slots that hold the references. `RefAlloc` relates the
three: the free list is a chain, and the counter of every managed object is the
number of slots that refer to it plus the number of references that the code
currently holds in its hands (`held`), modulo `2 ^ w`.

The hand-held references are what makes the invariant compositional. Taking a
reference out of a slot (`RefAlloc.clear`) or incrementing a counter
(`RefAlloc.retain`) puts one into the hands; filling a slot (`RefAlloc.fill`) and
decrementing a counter (`RefAlloc.release`) take one out. An object that nothing
refers to any more goes back on the free list (`RefAlloc.push`). A
function of the allocator's client is a sequence of such moves, and it is correct
when its hands are empty at the end.

Some slots own the object they refer to (`excl`): nothing else may refer to it.
-/

namespace Jos

variable {α ι : Type*} [DecidableEq α] [Fintype ι] {w : ℕ}

/-- The free list `free` and the counters `ref` are right for the references in
`slot` and those in `held`. -/
structure RefAlloc (managed : α → Prop) (excl : ι → Prop) (link : α → Option α) (hd : Option α)
    (ref : α → BitVec w) (slot : ι → Option α) (held : α → ℕ) (free : List α) : Prop where
  chain : Chain link hd free
  link_none : ∀ a, a ∉ free → link a = none
  free_managed : ∀ a ∈ free, managed a
  free_unref : ∀ a ∈ free, refCount slot a + held a = 0
  count : ∀ a, managed a → ref a = BitVec.ofNat w (refCount slot a + held a)
  slot_managed : ∀ i a, slot i = some a → managed a
  held_managed : ∀ a, held a ≠ 0 → managed a
  unique : ∀ i j a, excl i → slot i = some a → slot j = some a → j = i

namespace RefAlloc

variable {managed : α → Prop} {excl : ι → Prop} {link : α → Option α} {hd : Option α}
  {ref : α → BitVec w} {slot : ι → Option α} {held : α → ℕ} {free : List α} {a : α}

/-- A free object is referred to by nothing. -/
theorem slot_ne_of_mem (h : RefAlloc managed excl link hd ref slot held free) (ha : a ∈ free)
    (i : ι) : slot i ≠ some a := by
  have h0 := h.free_unref a ha
  exact refCount_eq_zero.mp (by omega) i

/-- What is referred to is not free. -/
theorem notMem_of_slot (h : RefAlloc managed excl link hd ref slot held free) {i : ι}
    (hi : slot i = some a) : a ∉ free :=
  fun ha => h.slot_ne_of_mem ha i hi

/-- What is held is not free. -/
theorem notMem_of_held (h : RefAlloc managed excl link hd ref slot held free)
    (ha : held a ≠ 0) : a ∉ free := by
  intro hm
  have h0 := h.free_unref a hm
  omega

/-- Incrementing the counter of an allocated object takes a reference in hand. -/
theorem retain (h : RefAlloc managed excl link hd ref slot held free) (hm : managed a)
    (ha : a ∉ free) :
    RefAlloc managed excl link hd (Function.update ref a (ref a + 1#w)) slot
      (held + Pi.single a 1) free where
  chain := h.chain
  link_none := h.link_none
  free_managed := h.free_managed
  free_unref b hb := by
    -- `a` is allocated, so no free object is touched
    have hne : b ≠ a := ne_of_mem_of_not_mem hb ha
    simpa [Pi.single_eq_of_ne hne] using h.free_unref b hb
  count b hb := by
    by_cases hba : b = a
    · subst hba
      rw [Function.update_self, h.count b hb, Pi.add_apply, Pi.single_eq_same, ← add_assoc,
        BitVec.ofNat_add (refCount slot b + held b) 1]
    · rw [Function.update_of_ne hba, h.count b hb, Pi.add_apply, Pi.single_eq_of_ne hba, add_zero]
  slot_managed := h.slot_managed
  held_managed b hb := by
    by_cases hba : b = a
    · exact hba ▸ hm
    · exact h.held_managed b (by simpa [Pi.single_eq_of_ne hba] using hb)
  unique := h.unique

/-- The counters after a decrement are right for one hand-held reference less. -/
private theorem count_release
    (h : RefAlloc managed excl link hd ref slot (held + Pi.single a 1) free) (b : α)
    (hb : managed b) :
    Function.update ref a (ref a - 1#w) b = BitVec.ofNat w (refCount slot b + held b) := by
  by_cases hba : b = a
  · subst hba
    calc Function.update ref b (ref b - 1#w) b
        = BitVec.ofNat w (refCount slot b + held b + 1) - 1#w := by
          rw [Function.update_self, h.count b hb, Pi.add_apply, Pi.single_eq_same, ← add_assoc]
      _ = BitVec.ofNat w (refCount slot b + held b) := by
          rw [BitVec.ofNat_add, BitVec.add_sub_cancel]
  · rw [Function.update_of_ne hba, h.count b hb, Pi.add_apply, Pi.single_eq_of_ne hba, add_zero]

/-- A decremented counter reads zero exactly when no reference is left, as long as
the references fit the counter. -/
theorem sub_one_eq_zero_iff
    (h : RefAlloc managed excl link hd ref slot (held + Pi.single a 1) free)
    (hlt : refCount slot a + held a < 2 ^ w) :
    ref a - 1#w = 0#w ↔ refCount slot a + held a = 0 := by
  have hm : managed a := h.held_managed a (by simp)
  have hval := h.count_release a hm
  rw [Function.update_self] at hval
  rw [hval, ← BitVec.toNat_inj, BitVec.toNat_ofNat, Nat.mod_eq_of_lt hlt]
  simp

private theorem held_managed_of_single
    (h : RefAlloc managed excl link hd ref slot (held + Pi.single a 1) free) (b : α)
    (hb : held b ≠ 0) : managed b :=
  h.held_managed b (by simp only [Pi.add_apply]; omega)

/-- Decrementing a counter that stays positive gives one hand-held reference up. -/
theorem release (h : RefAlloc managed excl link hd ref slot (held + Pi.single a 1) free) :
    RefAlloc managed excl link hd (Function.update ref a (ref a - 1#w)) slot held free where
  chain := h.chain
  link_none := h.link_none
  free_managed := h.free_managed
  free_unref b hb := by
    have h0 := h.free_unref b hb
    simp only [Pi.add_apply] at h0
    omega
  count := h.count_release
  slot_managed := h.slot_managed
  held_managed := h.held_managed_of_single
  unique := h.unique

/-- An allocated object without references can be pushed on the free list. -/
theorem push (h : RefAlloc managed excl link hd ref slot held free) (hm : managed a)
    (ha : a ∉ free) (h0 : refCount slot a + held a = 0) :
    RefAlloc managed excl (Function.update link a hd) (some a) ref slot held (a :: free) where
  chain := h.chain.push ha
  -- only the new head has a link that it did not have
  link_none b hb := by
    rw [List.mem_cons, not_or] at hb
    rw [Function.update_of_ne hb.1]
    exact h.link_none b hb.2
  free_managed b hb := by
    rcases List.mem_cons.mp hb with rfl | hb
    · exact hm
    · exact h.free_managed b hb
  free_unref b hb := by
    rcases List.mem_cons.mp hb with rfl | hb
    · exact h0
    · exact h.free_unref b hb
  count := h.count
  slot_managed := h.slot_managed
  held_managed := h.held_managed
  unique := h.unique

/-- Taking the first object off the free list. -/
theorem pop (h : RefAlloc managed excl link hd ref slot held (a :: free)) :
    RefAlloc managed excl (Function.update link a none) (link a) ref slot held free where
  chain := h.chain.pop
  link_none b hb := by
    by_cases hba : b = a
    · rw [hba, Function.update_self]
    · rw [Function.update_of_ne hba]
      exact h.link_none b (by simp [hba, hb])
  free_managed b hb := h.free_managed b (List.mem_cons_of_mem _ hb)
  free_unref b hb := h.free_unref b (List.mem_cons_of_mem _ hb)
  count := h.count
  slot_managed := h.slot_managed
  held_managed := h.held_managed
  unique := h.unique

section Slots

variable [DecidableEq ι]

/-- Emptying a slot puts the reference it held in hand. -/
theorem clear (h : RefAlloc managed excl link hd ref slot held free) {i : ι}
    (hi : slot i = some a) :
    RefAlloc managed excl link hd ref (Function.update slot i none)
      (held + Pi.single a 1) free := by
  -- the reference moves from the slot to the hand, so the sums stay
  have hcount (b : α) : refCount (Function.update slot i none) b +
      (held + Pi.single a 1 : α → ℕ) b =
      refCount slot b + held b := by
    have hu := refCount_update_none hi b
    rw [Pi.add_apply, Pi.single_apply]
    simp only [eq_comm (a := b)]
    omega
  have hsub : ∀ j b, Function.update slot i none j = some b → slot j = some b := by
    intro j b hj
    by_cases hji : j = i
    · rw [hji, Function.update_self] at hj
      cases hj
    · rwa [Function.update_of_ne hji] at hj
  refine ⟨h.chain, h.link_none, h.free_managed, ?_, ?_, ?_, ?_, ?_⟩
  · intro b hb
    rw [hcount b]
    exact h.free_unref b hb
  · intro b hb
    rw [hcount b]
    exact h.count b hb
  · exact fun j b hj => h.slot_managed j b (hsub j b hj)
  · intro b hb
    by_cases hba : b = a
    · exact hba ▸ h.slot_managed i a hi
    · exact h.held_managed b (by simpa [Pi.single_eq_of_ne hba] using hb)
  · exact fun j k b he hj hk => h.unique j k b he (hsub j b hj) (hsub k b hk)

/-- Filling an empty slot with a reference in hand. An owning slot needs an object
nothing else refers to, and no slot may share an owned object. -/
theorem fill (h : RefAlloc managed excl link hd ref slot (held + Pi.single a 1) free) {i : ι}
    (hi : slot i = none) (hown : excl i → refCount slot a = 0)
    (hshare : ∀ j, excl j → slot j ≠ some a) :
    RefAlloc managed excl link hd ref (Function.update slot i (some a)) held free := by
  have hm : managed a := h.held_managed a (by simp)
  have hcount (b : α) : refCount (Function.update slot i (some a)) b + held b =
      refCount slot b + (held + Pi.single a 1 : α → ℕ) b := by
    rw [refCount_update_some hi, Pi.add_apply, Pi.single_apply]
    simp only [eq_comm (a := b)]
    omega
  -- a slot of the new family either is the filled one or is an old one
  have hcase : ∀ j b, Function.update slot i (some a) j = some b →
      (j = i ∧ b = a) ∨ (j ≠ i ∧ slot j = some b) := by
    intro j b hj
    by_cases hji : j = i
    · subst hji
      rw [Function.update_self, Option.some.injEq] at hj
      exact Or.inl ⟨rfl, hj.symm⟩
    · rw [Function.update_of_ne hji] at hj
      exact Or.inr ⟨hji, hj⟩
  refine ⟨h.chain, h.link_none, h.free_managed, ?_, ?_, ?_, h.held_managed_of_single, ?_⟩
  · intro b hb
    rw [hcount b]
    exact h.free_unref b hb
  · intro b hb
    rw [hcount b]
    exact h.count b hb
  · intro j b hj
    rcases hcase j b hj with ⟨-, rfl⟩ | ⟨-, hj⟩
    · exact hm
    · exact h.slot_managed j b hj
  · intro j k b he hj hk
    rcases hcase j b hj with ⟨rfl, rfl⟩ | ⟨-, hj'⟩ <;>
      rcases hcase k b hk with ⟨rfl, hka⟩ | ⟨-, hk'⟩
    · rfl
    · -- the filled slot owns `a`, so no old slot refers to it
      exact absurd hk' (refCount_eq_zero.mp (hown he) k)
    · -- an old slot owns `b`, so it cannot be the `a` that was filled in
      exact absurd (hka ▸ hj') (hshare j he)
    · exact h.unique j k b he hj' hk'

end Slots

end RefAlloc

end Jos
