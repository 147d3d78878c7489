import Mathlib.Data.List.Basic

/-!
# Caches of a partial map

A cache is a list of pairs of a key and a value that were read from a partial map at
some time. It is coherent on a set of keys when every cached pair for one of them is
what the map has now (`CoherentOn`).

The map may change under the cache. Where it only gains values, nothing is spoiled, since
nothing can be cached at a key without a value (`CoherentOn.grow`). Where it loses or
replaces one, the key has to be left out of the set until the pairs for it are dropped
(`CoherentOn.drop`).
-/

namespace Jos

variable {K V : Type}

/-- Every cached pair whose key is in `D` is in the map. -/
def CoherentOn (D : K → Prop) (m : K → Option V) (T : List (K × V)) : Prop :=
  ∀ t ∈ T, D t.1 → m t.1 = some t.2

namespace CoherentOn

variable {D D' : K → Prop} {m m' : K → Option V} {T : List (K × V)} {x : K}

theorem nil : CoherentOn D m [] := fun _ ht => by cases ht

/-- Caching what the map has. -/
theorem fill {v : V} (h : CoherentOn D m T) (hv : D x → m x = some v) :
    CoherentOn D m ((x, v) :: T) := by
  intro t ht hD
  obtain rfl | ht := List.mem_cons.mp ht
  · exact hv hD
  · exact h t ht hD

/-- The map may gain values, and the set may lose keys. -/
theorem grow (h : CoherentOn D m T) (hD : ∀ k, D' k → D k)
    (hm : ∀ k v, D' k → m k = some v → m' k = some v) : CoherentOn D' m' T := by
  intro t ht ht'
  exact hm t.1 t.2 ht' (h t ht (hD t.1 ht'))

/-- The pairs that are not dropped have to be right. -/
theorem drop (h : CoherentOn D m T) (p : K × V → Bool)
    (hD : ∀ t, p t = true → D' t.1 → D t.1) : CoherentOn D' m (T.filter p) := by
  intro t ht ht'
  obtain ⟨hmem, hp⟩ := List.mem_filter.mp ht
  exact h t hmem (hD t hp ht')

end CoherentOn

end Jos
