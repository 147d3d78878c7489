import Mathlib.Order.Bounds.Basic
import Mathlib.Order.Interval.Set.Basic
import Mathlib.Tactic.Common

/-!
# Halving a table in which only some entries count

A `MarkedTable` has a value for every index, but only the marked ones count. To find the
place of `a` in a region, look at the last marked entry of its lower half; its value says
which part of the region to keep.

* `Splits a L R l r` is the invariant of such a search: what counts on the left of `l` is
  at most `a`, what counts on the right of `r` is above `a`. One lemma for each way a round
  can go keeps it: `Splits.skip`, `Splits.low`, `Splits.high`.
* `meets a l r` says whether a search of `[l, r]` comes upon an entry whose value is
  exactly `a`, and what the right end of the region is by then. It does not depend on what
  the search does afterwards.
-/

namespace Jos

/-- The middle of a region is inside it, also when it is rounded towards zero. -/
theorem tdiv_two_bounds {l r : ℤ} (h : l ≤ r) : l ≤ (l + r).tdiv 2 ∧ (l + r).tdiv 2 ≤ r := by
  obtain hpos | hneg := le_total 0 (l + r)
  · rw [Int.tdiv_eq_ediv_of_nonneg hpos]
    omega
  · have hquot : (-(l + r)).tdiv 2 = -(l + r) / 2 := Int.tdiv_eq_ediv_of_nonneg (by omega)
    rw [Int.neg_tdiv] at hquot
    omega

/-- A table of which only some entries count. -/
structure MarkedTable (α : Type*) where
  marked : ℤ → Bool
  value : ℤ → α

namespace MarkedTable

variable {α : Type*} (T : MarkedTable α)

/-- The last entry that counts among the `k` entries that end with `m`. -/
def last : ℕ → ℤ → Option ℤ
  | 0, _ => none
  | k + 1, m => if T.marked m then some m else last k (m - 1)

variable {T}

theorem last_eq_some {k : ℕ} {m i : ℤ} (h : T.last k m = some i) :
    T.marked i ∧ m - k < i ∧ i ≤ m ∧ ∀ j, i < j → j ≤ m → ¬T.marked j := by
  induction k generalizing m with
  | zero => cases h
  | succ k ih =>
    rw [last] at h
    split at h
    · next hm =>
      cases h
      exact ⟨hm, by omega, le_rfl, fun j hj hjm => absurd hj (by omega)⟩
    · next hm =>
      obtain ⟨hi, hlow, hup, hbetween⟩ := ih h
      refine ⟨hi, by omega, by omega, fun j hij hjm => ?_⟩
      obtain rfl | hlt := eq_or_lt_of_le hjm
      · exact hm
      · exact hbetween j hij (by omega)

theorem last_eq_none {k : ℕ} {m : ℤ} (h : T.last k m = none) :
    ∀ j, m - k < j → j ≤ m → ¬T.marked j := by
  induction k generalizing m with
  | zero => exact fun j hj hjm => absurd hj (by omega)
  | succ k ih =>
    rw [last] at h
    split at h
    · cases h
    · next hm =>
      intro j hj hjm
      obtain rfl | hlt := eq_or_lt_of_le hjm
      · exact hm
      · exact ih h j (by omega) (by omega)

/-- A marked entry is found. -/
theorem last_ne_none {k : ℕ} {m j : ℤ} (hj : T.marked j) (hlow : m - k < j) (hup : j ≤ m) :
    ∃ i, T.last k m = some i ∧ j ≤ i := by
  cases h : T.last k m with
  | none => exact absurd hj (last_eq_none h j hlow hup)
  | some i =>
    refine ⟨i, rfl, ?_⟩
    by_contra hlt
    exact (last_eq_some h).2.2.2 j (by omega) hup hj

variable (T) in
/-- The entry a search of `[l, r]` looks at: the last one that counts in the lower half. -/
def probe (l r : ℤ) : Option ℤ := T.last ((l + r).tdiv 2 + 1 - l).toNat ((l + r).tdiv 2)

theorem probe_eq_some {l r m : ℤ} (hlr : l ≤ r) (h : T.probe l r = some m) :
    T.marked m ∧ l ≤ m ∧ m ≤ (l + r).tdiv 2 ∧
      ∀ j, m < j → j ≤ (l + r).tdiv 2 → ¬T.marked j := by
  have hmid := tdiv_two_bounds hlr
  obtain ⟨hm, hlow, hup, hbetween⟩ := last_eq_some h
  exact ⟨hm, by omega, hup, hbetween⟩

theorem probe_eq_none {l r : ℤ} (hlr : l ≤ r) (h : T.probe l r = none) :
    ∀ j, l ≤ j → j ≤ (l + r).tdiv 2 → ¬T.marked j := by
  have hmid := tdiv_two_bounds hlr
  exact fun j hj hjm => last_eq_none h j (by omega) hjm

variable [LinearOrder α]

variable (T) in
/-- The entries of `[L, R]` that count are in order. -/
def SortedOn (L R : ℤ) : Prop :=
  ∀ i j, L ≤ i → i ≤ j → j ≤ R → T.marked i → T.marked j → T.value i ≤ T.value j

/-! ### The invariant -/

variable (T) in
/-- The place of `a` in `[L, R]` is in `[l, r]`. -/
structure Splits (a : α) (L R l r : ℤ) : Prop where
  start : L ≤ l
  stop : r ≤ R
  region : l ≤ r + 1
  below : ∀ i, L ≤ i → i < l → T.marked i → T.value i ≤ a
  above : ∀ i, r < i → i ≤ R → T.marked i → a < T.value i

namespace Splits

variable {a : α} {L R l r m : ℤ}

/-- Before the search. -/
theorem whole (h : L ≤ R + 1) : T.Splits a L R L R where
  start := le_rfl
  stop := le_rfl
  region := h
  below _ hi hlt := absurd hi (by omega)
  above _ hi hle := absurd hi (by omega)

/-- Nothing in the lower half counts. -/
theorem skip (h : T.Splits a L R l r) (hlr : l ≤ r) (hp : T.probe l r = none) :
    T.Splits a L R ((l + r).tdiv 2 + 1) r := by
  have hmid := tdiv_two_bounds hlr
  refine ⟨by have := h.start; omega, h.stop, by omega, fun i hi hlt hmark => ?_, h.above⟩
  by_cases hil : i < l
  · exact h.below i hi hil hmark
  · exact absurd hmark (probe_eq_none hlr hp i (by omega) (by omega))

/-- What counts before an entry that is at most `a` is at most `a`. -/
theorem below_of_le (hs : T.SortedOn L R) (hmR : m ≤ R)
    (hm : T.marked m) (hle : T.value m ≤ a) {i : ℤ} (hi : L ≤ i) (him : i ≤ m)
    (hmark : T.marked i) : T.value i ≤ a :=
  (hs i m hi him hmR hmark hm).trans hle

/-- The entry is at most `a`: the lower half is done. -/
theorem low (h : T.Splits a L R l r) (hs : T.SortedOn L R) (hlr : l ≤ r)
    (hp : T.probe l r = some m) (hle : T.value m ≤ a) :
    T.Splits a L R ((l + r).tdiv 2 + 1) r := by
  have hmid := tdiv_two_bounds hlr
  obtain ⟨hm, hlm, hup, hbetween⟩ := probe_eq_some hlr hp
  have hmR : m ≤ R := by have := h.stop; omega
  refine ⟨by have := h.start; omega, h.stop, by omega, fun i hi hlt hmark => ?_, h.above⟩
  by_cases him : i ≤ m
  · exact below_of_le hs hmR hm hle hi him hmark
  · exact absurd hmark (hbetween i (by omega) (by omega))

/-- The entry is at most `a`, and the region begins with it from now on. -/
theorem lowAt (h : T.Splits a L R l r) (hs : T.SortedOn L R) (hlr : l ≤ r)
    (hp : T.probe l r = some m) (hle : T.value m ≤ a) : T.Splits a L R m r := by
  have hmid := tdiv_two_bounds hlr
  obtain ⟨hm, hlm, hup, -⟩ := probe_eq_some hlr hp
  have hmR : m ≤ R := by have := h.stop; omega
  exact ⟨by have := h.start; omega, h.stop, by omega,
    fun i hi hlt hmark => below_of_le hs hmR hm hle hi hlt.le hmark, h.above⟩

/-- The entry is above `a`: it and what is on its right is done. -/
theorem high (h : T.Splits a L R l r) (hs : T.SortedOn L R) (hlr : l ≤ r)
    (hp : T.probe l r = some m) (hlt : a < T.value m) : T.Splits a L R l (m - 1) := by
  have hmid := tdiv_two_bounds hlr
  obtain ⟨hm, hlm, hup, -⟩ := probe_eq_some hlr hp
  have hstop := h.stop
  have hstart := h.start
  refine ⟨hstart, by omega, by omega, h.below, fun i hi hle hmark => ?_⟩
  exact hlt.trans_le (hs m i (by omega) (by omega) hle hm hmark)

/-- At the end, the entries that are at most `a` are those up to `r`. -/
theorem value_le_iff (h : T.Splits a L R (r + 1) r) {i : ℤ} (hi : L ≤ i) (hiR : i ≤ R)
    (hmark : T.marked i) : T.value i ≤ a ↔ i ≤ r := by
  refine ⟨fun hle => ?_, fun hir => h.below i hi (by omega) hmark⟩
  by_contra hlt
  exact absurd (h.above i (by omega) hiR hmark) (not_lt.mpr hle)

end Splits

/-! ### Coming upon an exact value -/

variable (T) in
/-- Search `[l, r]` for the place of `a`, until an entry with the value `a` is looked at:
that entry, and the right end of the region by then. -/
def meets (a : α) (l r : ℤ) : Option (ℤ × ℤ) :=
  if _hlr : l ≤ r then
    match hp : T.probe l r with
    | none => meets a ((l + r).tdiv 2 + 1) r
    | some m =>
      if T.value m < a then meets a ((l + r).tdiv 2 + 1) r
      else if a < T.value m then meets a l (m - 1)
      else some (m, r)
  else none
termination_by (r + 1 - l).toNat
decreasing_by
  all_goals
    have hmid := tdiv_two_bounds _hlr
    first
    | omega
    | have hprobe := probe_eq_some _hlr hp
      omega

variable {a : α} {l r m : ℤ}

theorem meets_of_lt (h : r < l) : T.meets a l r = none := by
  rw [meets, dif_neg (not_le.mpr h)]

theorem meets_skip (hlr : l ≤ r) (hp : T.probe l r = none) :
    T.meets a l r = T.meets a ((l + r).tdiv 2 + 1) r := by
  rw [meets, dif_pos hlr]
  split
  · rfl
  · next m hm => cases hm.symm.trans hp

theorem meets_low (hlr : l ≤ r) (hp : T.probe l r = some m) (hlt : T.value m < a) :
    T.meets a l r = T.meets a ((l + r).tdiv 2 + 1) r := by
  rw [meets, dif_pos hlr]
  split
  · rfl
  · next m' hm =>
    obtain rfl := Option.some.inj (hm.symm.trans hp)
    rw [if_pos hlt]

theorem meets_high (hlr : l ≤ r) (hp : T.probe l r = some m) (hlt : a < T.value m) :
    T.meets a l r = T.meets a l (m - 1) := by
  rw [meets, dif_pos hlr]
  split
  · next hm => cases hm.symm.trans hp
  · next m' hm =>
    obtain rfl := Option.some.inj (hm.symm.trans hp)
    rw [if_neg (not_lt.mpr hlt.le), if_pos hlt]

theorem meets_exact (hlr : l ≤ r) (hp : T.probe l r = some m) (heq : T.value m = a) :
    T.meets a l r = some (m, r) := by
  rw [meets, dif_pos hlr]
  split
  · next hm => cases hm.symm.trans hp
  · next m' hm =>
    obtain rfl := Option.some.inj (hm.symm.trans hp)
    rw [if_neg (not_lt.mpr heq.ge), if_neg (not_lt.mpr heq.le)]

/-- What a search comes upon is an entry of the region with that value. -/
theorem meets_eq_some {k q : ℤ} (h : T.meets a l r = some (k, q)) :
    T.marked k ∧ T.value k = a ∧ l ≤ k ∧ k ≤ q ∧ q ≤ r := by
  -- along the rounds of the search: each keeps to a part of the region
  fun_induction T.meets a l r with
  | case1 l r hlr hp ih =>
    have hmid := tdiv_two_bounds hlr
    obtain ⟨hk, hv, hlow, hup, hstop⟩ := ih h
    exact ⟨hk, hv, by omega, hup, hstop⟩
  | case2 l r hlr m hp hlt ih =>
    have hmid := tdiv_two_bounds hlr
    obtain ⟨hk, hv, hlow, hup, hstop⟩ := ih h
    exact ⟨hk, hv, by omega, hup, hstop⟩
  | case3 l r hlr m hp hnlt hlt ih =>
    have hmid := tdiv_two_bounds hlr
    obtain ⟨-, -, hup', -⟩ := probe_eq_some hlr hp
    obtain ⟨hk, hv, hlow, hup, hstop⟩ := ih h
    exact ⟨hk, hv, hlow, hup, by omega⟩
  | case4 l r hlr m hp hnlt hngt =>
    cases h
    have hmid := tdiv_two_bounds hlr
    obtain ⟨hm, hlow, hup, -⟩ := probe_eq_some hlr hp
    exact ⟨hm, le_antisymm (not_lt.mp hngt) (not_lt.mp hnlt), hlow, by omega, le_rfl⟩
  | case5 => cases h

end MarkedTable

end Jos
