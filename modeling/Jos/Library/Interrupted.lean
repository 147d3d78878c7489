import Mathlib.Logic.Relation

/-!
# Computations with an environment at work

A computation on a state of type `S` is here the relation between the state it starts
in, its result, and the state it ends in. It is built from atomic steps; before each of
them an environment may change the state any number of times (`atom`). A computation
that fails has no outcome. `Triple P x Q` is the usual triple of a precondition, a
computation and a postcondition, and it goes through the operations of the monad.

If the environment only touches what the computation does not look at, the interruptions
do not change what it computes. `Implements π x f` says so: `π` hides what the
environment touches, and on hidden states the outcomes of `x` are those of the function
`f`. It goes through the operations of the monad, so a program made of atomic steps
implements the function that is made of their functions.
-/

namespace Jos

/-- The outcomes of a computation: from a state, with a result, to a state. -/
def Interrupted (S α : Type) := S → α → S → Prop

namespace Interrupted

variable {S ε α β : Type}

instance : Monad (Interrupted S) where
  pure a := fun s b s' => b = a ∧ s' = s
  bind x k := fun s b s' => ∃ a s₁, x s a s₁ ∧ k a s₁ b s'

/-- An atomic step, after some steps of the environment. -/
def atom (env : S → S → Prop) (f : S → Except ε (α × S)) : Interrupted S α := fun s a s' =>
  ∃ s₁, Relation.ReflTransGen env s s₁ ∧ f s₁ = .ok (a, s')

/-- A computation of a value that does not look at the state. -/
def compute (x : Except ε α) : Interrupted S α := fun s a s' => x = .ok a ∧ s' = s

/-- From a state in `P` the computation ends, if it ends, with a result and a state in
`Q`. -/
def Triple (P : S → Prop) (x : Interrupted S α) (Q : α → S → Prop) : Prop :=
  ∀ s a s', P s → x s a s' → Q a s'

namespace Triple

variable {P : S → Prop} {Q R : α → S → Prop} {x : Interrupted S α}

theorem bind {k : α → Interrupted S β} {Q' : β → S → Prop} (hx : Triple P x R)
    (hk : ∀ a, Triple (R a) (k a) Q') : Triple P (x >>= k) Q' := by
  rintro s b s' hP ⟨a, s₁, hfirst, hrest⟩
  exact hk a s₁ b s' (hx s a s₁ hP hfirst) hrest

theorem weaken (hx : Triple P x R) (h : ∀ a s, R a s → Q a s) : Triple P x Q :=
  fun s a s' hP hrun => h a s' (hx s a s' hP hrun)

/-- What every round of a loop keeps, the loop keeps. -/
theorem forM {ι : Type} {x : ι → Interrupted S Unit} {I : S → Prop} {l : List ι}
    (hx : ∀ i ∈ l, Triple I (x i) fun _ => I) : Triple I (l.forM x) fun _ => I := by
  induction l with
  | nil =>
    rintro s u s' hI ⟨-, rfl⟩
    exact hI
  | cons i l ih =>
    exact (hx i List.mem_cons_self).bind fun _ => ih fun j hj => hx j (List.mem_cons_of_mem _ hj)

end Triple

end Interrupted

/-- A state as an outcome without a result. -/
def done {S ε : Type} (x : Except ε S) : Except ε (Unit × S) := x.map fun s => ((), s)

@[simp] theorem done_eq_ok {S ε : Type} {x : Except ε S} {u : Unit} {s : S} :
    done x = .ok (u, s) ↔ x = .ok s := by
  cases x with
  | error e => simp [done, Except.map]
  | ok s' => simp [done, Except.map]

theorem done_bind {S ε α : Type} (x : Except ε α) (f : α → Except ε S) :
    done (x >>= f) = x >>= fun a => done (f a) := by
  cases x <;> rfl

/-- On states of which `π` is left, `x` has the outcomes of `f`. -/
structure Implements {S ε α : Type} (π : S → S) (x : Interrupted S α)
    (f : S → Except ε (α × S)) : Prop where
  sound : ∀ {s a s'}, x s a s' → f (π s) = .ok (a, π s')
  complete : ∀ {s a t}, f (π s) = .ok (a, t) → ∃ s', x s a s' ∧ π s' = t

namespace Implements

variable {S ε α β ι : Type} {π : S → S} {env : S → S → Prop}

/-- A step whose function commutes with hiding what the environment touches. -/
theorem atom {f : S → Except ε (α × S)} (henv : ∀ s s', env s s' → π s' = π s)
    (hf : ∀ s, f (π s) = (f s).map fun r => (r.1, π r.2)) :
    Implements π (Interrupted.atom env f) f where
  sound := by
    rintro s a s' ⟨s₁, hsteps, hrun⟩
    -- the environment may take any number of steps first, and `π` sees none of them
    have hsame : π s₁ = π s := by
      clear hrun
      induction hsteps with
      | refl => rfl
      | tail _ hstep ih => rw [henv _ _ hstep, ih]
    rw [← hsame, hf, hrun]
    rfl
  complete := by
    intro s a t hrun
    rw [hf] at hrun
    cases hs : f s with
    | error e =>
      rw [hs] at hrun
      cases hrun
    | ok r =>
      rw [hs] at hrun
      cases hrun
      exact ⟨r.2, ⟨s, .refl, hs⟩, rfl⟩

theorem pure (a : α) :
    Implements π (Pure.pure a : Interrupted S α) fun s => (.ok (a, s) : Except ε _) where
  sound := by
    rintro s b s' ⟨rfl, rfl⟩
    rfl
  complete := by
    intro s b t h
    cases h
    exact ⟨s, ⟨rfl, rfl⟩, rfl⟩

theorem compute (x : Except ε α) :
    Implements π (Interrupted.compute x) fun s => x.map fun a => (a, s) where
  sound := by
    rintro s a s' ⟨rfl, rfl⟩
    rfl
  complete := by
    intro s a t h
    cases x with
    | error e => cases h
    | ok b =>
      cases h
      exact ⟨s, ⟨rfl, rfl⟩, rfl⟩

theorem bind {x : Interrupted S α} {k : α → Interrupted S β} {f : S → Except ε (α × S)}
    {g : α → S → Except ε (β × S)} (hx : Implements π x f) (hk : ∀ a, Implements π (k a) (g a)) :
    Implements π (x >>= k) fun s => f s >>= fun r => g r.1 r.2 where
  sound := by
    rintro s b s' ⟨a, s₁, hfirst, hrest⟩
    simp only [hx.sound hfirst]
    exact (hk a).sound hrest
  complete := by
    intro s b t h
    cases hf : f (π s) with
    | error e =>
      rw [hf] at h
      cases h
    | ok r =>
      obtain ⟨a, t₁⟩ := r
      rw [hf] at h
      obtain ⟨s₁, hfirst, rfl⟩ := hx.complete hf
      obtain ⟨s', hrest, ht⟩ := (hk a).complete h
      exact ⟨s', ⟨a, s₁, hfirst, hrest⟩, ht⟩

theorem congr {x : Interrupted S α} {f g : S → Except ε (α × S)} (hx : Implements π x f)
    (h : ∀ s, f s = g s) : Implements π x g := funext h ▸ hx

/-- A value that is computed first. -/
theorem compute_bind (x : Except ε α) {k : α → Interrupted S β} {g : α → S → Except ε (β × S)}
    (hk : ∀ a, Implements π (k a) (g a)) :
    Implements π (Interrupted.compute x >>= k) fun s => x >>= fun a => g a s :=
  ((compute x).bind hk).congr fun s => by cases x <;> rfl

/-- A step without a result. -/
theorem done_bind {x : Interrupted S Unit} {k : Interrupted S β} {f : S → Except ε S}
    {g : S → Except ε (β × S)} (hx : Implements π x fun s => done (f s))
    (hk : Implements π k g) : Implements π (x >>= fun _ => k) fun s => f s >>= g :=
  (hx.bind fun _ => hk).congr fun s => by cases f s <;> rfl

/-- A step that only reads. -/
theorem read_bind {x : Interrupted S α} {k : α → Interrupted S β} {f : S → α}
    {g : α → S → Except ε (β × S)} (hx : Implements π x fun s => (.ok (f s, s) : Except ε _))
    (hk : ∀ a, Implements π (k a) (g a)) : Implements π (x >>= k) fun s => g (f s) s := hx.bind hk

/-- A step that only writes. -/
theorem write_bind {x : Interrupted S Unit} {k : Interrupted S β} {f : S → S}
    {g : S → Except ε (β × S)} (hx : Implements π x fun s => (.ok ((), f s) : Except ε _))
    (hk : Implements π k g) : Implements π (x >>= fun _ => k) fun s => g (f s) :=
  hx.bind fun _ => hk

theorem ite {c : Prop} [Decidable c] {x y : Interrupted S α} {f g : S → Except ε (α × S)}
    (hx : Implements π x f) (hy : Implements π y g) :
    Implements π (if c then x else y) fun s => if c then f s else g s := by
  by_cases hc : c
  · simpa only [if_pos hc] using hx
  · simpa only [if_neg hc] using hy

/-- A loop over a list. -/
theorem forM {x : ι → Interrupted S Unit} {f : S → ι → Except ε S}
    (hx : ∀ i, Implements π (x i) fun s => done (f s i)) (l : List ι) :
    Implements π (l.forM x) fun s => done (l.foldlM f s) := by
  induction l with
  | nil => exact Implements.pure ()
  | cons i l ih =>
    refine (Implements.bind (hx i) fun _ => ih).congr fun s => ?_
    rw [List.foldlM_cons]
    cases f s i <;> rfl

end Implements

end Jos
