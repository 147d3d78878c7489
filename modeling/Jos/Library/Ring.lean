import Mathlib.Data.List.Basic
import Mathlib.Data.Nat.ModEq
import Mathlib.Logic.Function.Basic

/-!
# Ring buffers

A buffer of `n` cells with an index to read from and an index to write to, which go back to
0 behind the last cell. There is no count: the ring is empty when the two indices are equal.
So it can hold a queue of at most `n - 1` values, and as long as that is respected writing
and reading are those of a queue: `Ring.Holds.put`, `Ring.Holds.get_cons` and
`Ring.Holds.get_nil`. With `n` values in it a ring is empty for its reader.
-/

namespace Jos

variable {α : Type*}

/-- The cells, the index of the next read and the index of the next write. -/
structure Ring (α : Type*) where
  buf : ℕ → α
  rpos : ℕ
  wpos : ℕ

namespace Ring

/-- The index behind `i`. -/
def next (n i : ℕ) : ℕ := if i + 1 = n then 0 else i + 1

theorem next_eq_mod {n i : ℕ} (hi : i < n) : next n i = (i + 1) % n := by
  unfold next
  split_ifs with h
  · rw [h, Nat.mod_self]
  · rw [Nat.mod_eq_of_lt (by omega)]

/-- Different places are different cells. -/
theorem add_mod_ne {n a i j : ℕ} (hi : i < j) (hj : j < n) : (a + i) % n ≠ (a + j) % n := by
  intro hc
  have hdvd : n ∣ j - i := by
    have hsub := (Nat.modEq_iff_dvd' (by omega)).mp hc
    rwa [Nat.add_sub_add_left] at hsub
  exact absurd (Nat.le_of_dvd (by omega) hdvd) (by omega)

/-- Write a value. -/
def put (n : ℕ) (r : Ring α) (a : α) : Ring α :=
  { r with buf := Function.update r.buf r.wpos a, wpos := next n r.wpos }

/-- Read a value, if the ring does not look empty. -/
def get (n : ℕ) (r : Ring α) : Option α × Ring α :=
  if r.rpos ≠ r.wpos then (some (r.buf r.rpos), { r with rpos := next n r.rpos }) else (none, r)

/-- The ring holds a queue: its values stand from the index of the next read on. -/
structure Holds (n : ℕ) (r : Ring α) (q : List α) : Prop where
  rpos_lt : r.rpos < n
  length_lt : q.length < n
  wpos_eq : r.wpos = (r.rpos + q.length) % n
  cell : ∀ i a, q[i]? = some a → r.buf ((r.rpos + i) % n) = a

namespace Holds

variable {n : ℕ} {r : Ring α} {q : List α}

theorem wpos_lt (h : r.Holds n q) : r.wpos < n := by
  rw [h.wpos_eq]
  exact Nat.mod_lt _ (Nat.zero_lt_of_lt h.rpos_lt)

/-- The indices are equal exactly when the queue is empty. -/
theorem rpos_eq_wpos_iff (h : r.Holds n q) : r.rpos = r.wpos ↔ q = [] := by
  rw [h.wpos_eq, ← List.length_eq_zero_iff]
  constructor
  · intro hc
    by_contra hne
    refine add_mod_ne (a := r.rpos) (Nat.pos_of_ne_zero hne) h.length_lt ?_
    rw [Nat.add_zero, Nat.mod_eq_of_lt h.rpos_lt, ← hc]
  · intro hlen
    rw [hlen, Nat.add_zero, Nat.mod_eq_of_lt h.rpos_lt]

/-- How many values there are can be seen from the indices. -/
theorem length_eq (h : r.Holds n q) : q.length = (r.wpos + n - r.rpos) % n := by
  have hr := h.rpos_lt
  have hq := h.length_lt
  rw [h.wpos_eq]
  obtain hlt | hge := Nat.lt_or_ge (r.rpos + q.length) n
  · have hdist : r.rpos + q.length + n - r.rpos = q.length + n := by omega
    rw [Nat.mod_eq_of_lt hlt, hdist, Nat.add_mod_right, Nat.mod_eq_of_lt hq]
  · -- the queue goes over the end of the buffer
    have hwrap : r.rpos + q.length - n < n := by omega
    have hdist : r.rpos + q.length - n + n - r.rpos = q.length := by omega
    rw [Nat.mod_eq_sub_mod hge, Nat.mod_eq_of_lt hwrap, hdist, Nat.mod_eq_of_lt hq]

/-- Writing is queueing, while there is room. -/
theorem put (h : r.Holds n q) (hroom : q.length + 1 < n) (a : α) :
    (r.put n a).Holds n (q ++ [a]) := by
  refine ⟨h.rpos_lt, by rw [List.length_append]; exact hroom, ?_, ?_⟩
  · calc next n r.wpos
        = (r.wpos + 1) % n := next_eq_mod h.wpos_lt
      _ = (r.rpos + q.length + 1) % n := by rw [h.wpos_eq, Nat.mod_add_mod]
      _ = (r.rpos + (q ++ [a]).length) % n := by
          rw [List.length_append, List.length_singleton, Nat.add_assoc]
  · intro i b hb
    change Function.update r.buf r.wpos a ((r.rpos + i) % n) = b
    rw [h.wpos_eq]
    have hi : i < q.length + 1 := by
      have := (List.getElem?_eq_some_iff.mp hb).1
      rwa [List.length_append] at this
    -- an old element is at another index, because the ring is not full
    obtain hlt | rfl := Nat.lt_or_eq_of_le (Nat.le_of_lt_succ hi)
    · rw [Function.update_of_ne (add_mod_ne hlt h.length_lt)]
      rw [List.getElem?_append_left hlt] at hb
      exact h.cell i b hb
    · rw [List.getElem?_concat_length] at hb
      rw [Function.update_self]
      exact Option.some.inj hb

/-- Reading takes the oldest value. -/
theorem get_cons {a : α} (h : r.Holds n (a :: q)) :
    (r.get n).1 = some a ∧ (r.get n).2.Holds n q := by
  -- a queue that is not empty is shorter than the ring, so the indices differ
  have hne : r.rpos ≠ r.wpos := fun hc => List.cons_ne_nil a q (h.rpos_eq_wpos_iff.mp hc)
  have hlen := h.length_lt
  rw [List.length_cons] at hlen
  rw [get, if_pos hne]
  refine ⟨?_, ?_, Nat.lt_of_succ_lt hlen, ?_, ?_⟩
  · have hfirst := h.cell 0 a rfl
    rw [Nat.add_zero, Nat.mod_eq_of_lt h.rpos_lt] at hfirst
    rw [hfirst]
  · change next n r.rpos < n
    rw [next_eq_mod h.rpos_lt]
    exact Nat.mod_lt _ (Nat.zero_lt_of_lt h.rpos_lt)
  · calc r.wpos
        = (r.rpos + (q.length + 1)) % n := h.wpos_eq
      _ = (r.rpos + 1 + q.length) % n := by rw [Nat.add_assoc, Nat.add_comm 1]
      _ = (next n r.rpos + q.length) % n := by rw [next_eq_mod h.rpos_lt, Nat.mod_add_mod]
  · intro i b hb
    change r.buf ((next n r.rpos + i) % n) = b
    rw [next_eq_mod h.rpos_lt, Nat.mod_add_mod, Nat.add_assoc, Nat.add_comm 1]
    exact h.cell (i + 1) b hb

/-- There is nothing to read from the empty queue. -/
theorem get_nil (h : r.Holds n []) : r.get n = (none, r) := by
  rw [get, if_neg (not_not.mpr (h.rpos_eq_wpos_iff.mpr rfl))]

end Holds

end Ring

end Jos
