import Mathlib.Algebra.BigOperators.Pi
import Mathlib.Data.Fintype.Card

/-!
# Counting references

A family of slots `f : ι → Option α`, each of which is empty or refers to one
object. `refCount f a` is the number of slots that refer to `a`. The lemmas say
how the count moves when one slot is written (`refCount_update`), and how a
family splits into two (`refCount_filter`): reference counting is correct when
the counters follow them.
-/

namespace Jos

variable {ι α : Type*} [Fintype ι] [DecidableEq α]

/-- The number of slots of `f` that refer to `a`. -/
def refCount (f : ι → Option α) (a : α) : ℕ :=
  (Finset.univ.filter fun i => f i = some a).card

theorem refCount_eq_zero {f : ι → Option α} {a : α} :
    refCount f a = 0 ↔ ∀ i, f i ≠ some a := by
  simp [refCount, Finset.filter_eq_empty_iff]

theorem refCount_pos {f : ι → Option α} {a : α} :
    0 < refCount f a ↔ ∃ i, f i = some a := by
  rw [Nat.pos_iff_ne_zero, Ne, refCount_eq_zero]
  push Not
  rfl

/-- What is referred to once is in one slot. -/
theorem eq_of_refCount_eq_one {f : ι → Option α} {a : α} (h : refCount f a = 1) {i j : ι}
    (hi : f i = some a) (hj : f j = some a) : j = i := by
  obtain ⟨k, hk⟩ := Finset.card_eq_one.mp h
  have hmem (l : ι) (hl : f l = some a) : l = k := by
    rw [← Finset.mem_singleton, ← hk, Finset.mem_filter]
    exact ⟨Finset.mem_univ l, hl⟩
  rw [hmem i hi, hmem j hj]

/-- Emptying slots takes references away. -/
theorem refCount_mono {f g : ι → Option α} (h : ∀ i, g i = none ∨ g i = f i) (a : α) :
    refCount g a ≤ refCount f a := by
  apply Finset.card_le_card
  intro i hi
  rw [Finset.mem_filter] at hi ⊢
  refine ⟨hi.1, ?_⟩
  rcases h i with hn | he
  · rw [hn] at hi
    cases hi.2
  · rw [← he]
    exact hi.2

variable [DecidableEq ι]

/-- Each slot that has changed adds one reference at most. -/
theorem refCount_le_add_card {f g : ι → Option α} (t : Finset ι) (h : ∀ i, i ∉ t → g i = f i)
    (a : α) : refCount g a ≤ refCount f a + t.card := by
  refine (Finset.card_le_card fun i hi => ?_).trans (Finset.card_union_le _ _)
  rw [Finset.mem_filter] at hi
  rw [Finset.mem_union, Finset.mem_filter]
  by_cases hit : i ∈ t
  · exact .inr hit
  · exact .inl ⟨hi.1, (h i hit).symm.trans hi.2⟩

/-- Writing one slot takes away the reference it held and adds the one it gets. -/
theorem refCount_update (f : ι → Option α) (i : ι) (v : Option α) (a : α) :
    refCount (Function.update f i v) a + (if f i = some a then 1 else 0) =
      refCount f a + (if v = some a then 1 else 0) := by
  -- the count at `i`, and the count everywhere else, which the write leaves alone
  have split (g : ι → Option α) : refCount g a =
      (if g i = some a then 1 else 0) +
        ((Finset.univ.erase i).filter fun j => g j = some a).card := by
    unfold refCount
    rw [← Finset.insert_erase (Finset.mem_univ i), Finset.filter_insert]
    split
    · rw [Finset.card_insert_of_notMem (by simp), add_comm]
      simp
    · simp
  have hrest : ((Finset.univ.erase i).filter fun j => Function.update f i v j = some a) =
      (Finset.univ.erase i).filter fun j => f j = some a :=
    Finset.filter_congr fun j hj => by
      rw [Function.update_of_ne (Finset.ne_of_mem_erase hj)]
  rw [split f, split (Function.update f i v), hrest, Function.update_self]
  omega

/-- Writing one slot adds one reference at most. -/
theorem refCount_update_le (f : ι → Option α) (i : ι) (b a : α) :
    refCount (Function.update f i (some b)) a ≤ refCount f a + (if b = a then 1 else 0) := by
  have h := refCount_update f i (some b) a
  simp only [Option.some.injEq] at h
  omega

/-- Filling an empty slot. -/
theorem refCount_update_some {f : ι → Option α} {i : ι} (hi : f i = none) (b a : α) :
    refCount (Function.update f i (some b)) a =
      refCount f a + (if b = a then 1 else 0) := by
  have h := refCount_update f i (some b) a
  simpa [hi] using h

/-- When a slot gets an object that nothing refers to, what has been referred to once still is. -/
theorem refCount_update_eq_one {f : ι → Option α} {i j : ι} {a b : α} (hb : refCount f b = 0)
    (hj : f j = some a → refCount f a = 1) (ha : Function.update f i (some b) j = some a) :
    refCount (Function.update f i (some b)) a = 1 := by
  have hcount := refCount_update f i (some b) a
  by_cases hji : j = i
  · rw [hji, Function.update_self] at ha
    obtain rfl := Option.some.inj ha
    rw [if_neg (refCount_eq_zero.mp hb i), if_pos rfl, hb] at hcount
    omega
  · have hpos := refCount_pos.mpr ⟨j, ha⟩
    rw [Function.update_of_ne hji] at ha
    have hab : b ≠ a := by
      rintro rfl
      exact refCount_eq_zero.mp hb j ha
    rw [hj ha, if_neg (fun hc => hab (Option.some.inj hc))] at hcount
    omega

/-- Emptying a full slot. -/
theorem refCount_update_none {f : ι → Option α} {i : ι} {b : α} (hi : f i = some b) (a : α) :
    refCount (Function.update f i none) a + (if b = a then 1 else 0) = refCount f a := by
  have h := refCount_update f i none a
  simpa [hi] using h

omit [DecidableEq ι] in
/-- The references of a family are those of the slots in `p` and those of the
others. -/
theorem refCount_filter (f : ι → Option α) (p : ι → Prop) [DecidablePred p] (a : α) :
    refCount f a =
      refCount (fun i => if p i then f i else none) a +
        refCount (fun i => if p i then none else f i) a := by
  unfold refCount
  rw [← Finset.card_filter_add_card_filter_not (s := Finset.univ.filter fun i => f i = some a) p]
  congr 2 <;> ext i <;> by_cases hp : p i <;> simp [hp]

end Jos
