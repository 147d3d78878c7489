import Mathlib.Data.List.Basic

/-!
# Layers of writes

A memory is a function from addresses, and a layer is a block of writes to it: the addresses it
covers, and what it leaves at each of them. When layers are put on a memory one after the other,
an address holds what the last layer that covers it has left there (`putAll_of_last`), or what
it held before (`putAll_of_none`); one of the two applies at every address
(`exists_last_or_none`).
-/

namespace Jos

variable {A B : Type*}

/-- A block of writes: the addresses, and what is written there. -/
structure Layer (A B : Type*) where
  /-- the addresses that are written -/
  covers : A → Bool
  /-- what is written; of no account where nothing is -/
  value : A → B

namespace Layer

/-- The memory behind the writes of a layer. -/
def put (l : Layer A B) (m : A → B) : A → B :=
  fun a => if l.covers a then l.value a else m a

/-- The memory behind the writes of several layers, the first one first. -/
def putAll (ls : List (Layer A B)) (m : A → B) : A → B :=
  ls.foldl (fun m l => l.put m) m

/-- Layer `j` is the last one to cover the address. -/
def IsLast (ls : List (Layer A B)) (a : A) (j : ℕ) (l : Layer A B) : Prop :=
  ls[j]? = some l ∧ l.covers a = true ∧ ∀ k l', j < k → ls[k]? = some l' → l'.covers a = false

variable {ls : List (Layer A B)} {l : Layer A B} {m : A → B} {a : A} {j : ℕ}

@[simp] theorem putAll_cons : putAll (l :: ls) m = putAll ls (l.put m) := rfl

theorem putAll_of_none (h : ∀ l ∈ ls, l.covers a = false) : putAll ls m a = m a := by
  induction ls generalizing m with
  | nil => rfl
  | cons l ls ih =>
    rw [putAll_cons, ih fun l' hl' => h l' (List.mem_cons_of_mem _ hl')]
    simp [put, h l List.mem_cons_self]

theorem putAll_of_last (h : IsLast ls a j l) : putAll ls m a = l.value a := by
  induction ls generalizing m j with
  | nil => simp [IsLast] at h
  | cons l₀ ls ih =>
    obtain ⟨hj, hc, hlast⟩ := h
    rw [putAll_cons]
    cases j with
    | zero =>
      -- the layers behind the first one leave the address alone
      obtain rfl : l₀ = l := by simpa using hj
      rw [putAll_of_none]
      · simp [put, hc]
      · intro l' hl'
        obtain ⟨k, hk⟩ := List.mem_iff_getElem?.1 hl'
        exact hlast (k + 1) l' (by omega) (by simpa using hk)
    | succ j =>
      refine ih ⟨by simpa using hj, hc, fun k l' hk hl' => ?_⟩
      exact hlast (k + 1) l' (by omega) (by simpa using hl')

theorem exists_last_or_none (ls : List (Layer A B)) (a : A) :
    (∃ j l, IsLast ls a j l) ∨ ∀ l ∈ ls, l.covers a = false := by
  induction ls with
  | nil => exact .inr (by simp)
  | cons l₀ ls ih =>
    rcases ih with ⟨j, l, hj, hc, hlast⟩ | hnone
    · refine .inl ⟨j + 1, l, by simpa using hj, hc, fun k l' hk hl' => ?_⟩
      obtain ⟨k, rfl⟩ : ∃ k', k = k' + 1 := ⟨k - 1, by omega⟩
      exact hlast k l' (by omega) (by simpa using hl')
    · by_cases hc : l₀.covers a = true
      · refine .inl ⟨0, l₀, rfl, hc, fun k l' hk hl' => ?_⟩
        obtain ⟨k, rfl⟩ : ∃ k', k = k' + 1 := ⟨k - 1, by omega⟩
        exact hnone l' (List.mem_of_getElem? (by simpa using hl'))
      · refine .inr fun l hl => ?_
        rcases List.mem_cons.1 hl with rfl | hl
        · simpa using hc
        · exact hnone l hl

/-- The last layer to cover an address is not before one that covers it. -/
theorem IsLast.le (h : IsLast ls a j l) {i : ℕ} {l' : Layer A B} (hi : ls[i]? = some l')
    (hc : l'.covers a = true) : i ≤ j := by
  by_contra hij
  have := h.2.2 i l' (by omega) hi
  simp [hc] at this

end Layer

end Jos
