import Mathlib.Data.List.Basic

/-!
# Runs of a labelled transition relation

`Run step s ops s'` says that the operations `ops`, taken in order, lead from `s`
to `s'`. The rules are the ones every safety argument uses: an invariant of the
step holds along a run (`Run.invariant`), and a run can be cut at any point
(`Run.append_iff`), so a property of all end states is a property of all states
on the way.

Where a property only holds as long as the steps respect a condition,
`Run.always_iff_meets` says that the condition is exact: a run stays in the
property if and only if each of its steps meets the condition where it is taken.
-/

namespace Jos

variable {S L : Type*}

/-- The labels `ops`, taken in order, lead from the first state to the second. -/
inductive Run (step : S → L → S → Prop) : S → List L → S → Prop
  | nil {s : S} : Run step s [] s
  | cons {s s' s'' : S} {op : L} {ops : List L} :
      step s op s' → Run step s' ops s'' → Run step s (op :: ops) s''

namespace Run

variable {step : S → L → S → Prop} {s s' s'' : S} {op : L} {ops ops' : List L}

theorem nil_iff : Run step s [] s' ↔ s' = s := by
  constructor
  · rintro ⟨⟩; rfl
  · rintro rfl; exact .nil

theorem cons_iff : Run step s (op :: ops) s'' ↔ ∃ s', step s op s' ∧ Run step s' ops s'' := by
  constructor
  · rintro ⟨⟩
    exact ⟨_, ‹_›, ‹_›⟩
  · rintro ⟨s', h, hr⟩
    exact .cons h hr

theorem append_iff :
    Run step s (ops ++ ops') s'' ↔ ∃ s', Run step s ops s' ∧ Run step s' ops' s'' := by
  induction ops generalizing s with
  | nil =>
    constructor
    · exact fun h => ⟨s, .nil, h⟩
    · rintro ⟨s', h, h'⟩
      rw [nil_iff] at h
      exact h ▸ h'
  | cons o t ih =>
    simp only [List.cons_append, cons_iff, ih]
    constructor
    · rintro ⟨u, hu, v, hv, h⟩
      exact ⟨v, ⟨u, hu, hv⟩, h⟩
    · rintro ⟨v, ⟨u, hu, hv⟩, h⟩
      exact ⟨u, hu, v, hv, h⟩

/-- **The invariant rule.** What holds at the start and is kept by every step
holds at the end of every run. -/
theorem invariant {P : S → Prop} (hstep : ∀ s op s', P s → step s op s' → P s')
    (h : Run step s ops s') (h₀ : P s) : P s' := by
  induction h with
  | nil => exact h₀
  | cons hs _ ih => exact ih (hstep _ _ _ h₀ hs)

/-- The invariant rule for what also speaks of the labels taken so far. -/
theorem invariant_of_labels {P : List L → S → Prop}
    (hstep : ∀ ops s op s', P ops s → step s op s' → P (ops ++ [op]) s')
    (h : Run step s ops s') (h₀ : P [] s) : P ops s' := by
  have hgen : ∀ past, P past s → P (past ++ ops) s' := by
    clear h₀
    induction h with
    | nil =>
      intro past hp
      rwa [List.append_nil]
    | @cons _ _ _ op ops hs _ ih =>
      intro past hp
      have hnext := ih (past ++ [op]) (hstep past _ op _ hp hs)
      rwa [List.append_assoc] at hnext
  exact hgen [] h₀

/-- **The origin rule.** What holds at the end of a run and did not hold at its start
was brought about by one of its steps. -/
theorem origin {I φ : S → Prop} {ψ : L → Prop} (hI : ∀ s op s', I s → step s op s' → I s')
    (hφ : ∀ s op s', I s → step s op s' → φ s' → φ s ∨ ψ op) (h : Run step s ops s') (h₀ : I s)
    (hs : ¬φ s) (hs' : φ s') : ∃ op ∈ ops, ψ op := by
  induction h with
  | nil => exact absurd hs' hs
  | @cons _ u _ _ _ hstep _ ih =>
    -- `φ` already holds after the first step, or is brought about later
    by_cases hmid : φ u
    · obtain hc | hop := hφ _ _ _ h₀ hstep hmid
      · exact absurd hc hs
      · exact ⟨_, List.mem_cons_self, hop⟩
    · obtain ⟨op, hmem, hop⟩ := ih (hI _ _ _ h₀ hstep) hmid hs'
      exact ⟨op, List.mem_cons_of_mem _ hmem, hop⟩

/-! ### Conditions on the steps of a run -/

/-- Every state reached along `ops` satisfies `P`. -/
def Always (step : S → L → S → Prop) (s : S) (ops : List L) (P : S → Prop) : Prop :=
  ∀ ops₁ ops₂ s₁, ops = ops₁ ++ ops₂ → Run step s ops₁ s₁ → P s₁

/-- Every step taken along `ops` meets `Q` in the state it is taken in. -/
def Meets (step : S → L → S → Prop) (s : S) (ops : List L) (Q : S → L → Prop) : Prop :=
  ∀ ops₁ op ops₂ s₁, ops = ops₁ ++ op :: ops₂ → Run step s ops₁ s₁ → Q s₁ op

theorem Meets.nil {Q : S → L → Prop} : Meets step s [] Q := by
  rintro ops₁ op ops₂ s₁ h -
  exact absurd (List.nil_eq_append_iff.mp h).2 (List.cons_ne_nil op ops₂)

/-- A condition on the steps is met along a run if it is by the first step, and from wherever
that leads. -/
theorem Meets.cons {Q : S → L → Prop} {op : L} (h : Q s op)
    (hrest : ∀ s', step s op s' → Meets step s' ops Q) : Meets step s (op :: ops) Q := by
  rintro ops₁ op₁ ops₂ s₁ heq hr
  cases hr with
  | nil =>
    obtain ⟨rfl, -⟩ := List.cons.inj heq
    exact h
  | cons hs hr =>
    obtain ⟨rfl, htail⟩ := List.cons.inj heq
    exact hrest _ hs _ op₁ ops₂ s₁ htail hr

/-- A condition on the steps of a run is one on those after the first. -/
theorem Meets.tail {Q : S → L → Prop} {op : L} (h : Meets step s (op :: ops) Q)
    (hs : step s op s') : Meets step s' ops Q := by
  rintro ops₁ op₁ ops₂ s₁ rfl hr
  exact h (op :: ops₁) op₁ ops₂ s₁ rfl (.cons hs hr)

/-- A condition on the steps of a run is one on the steps of its end. -/
theorem Meets.drop {Q : S → L → Prop} (h : Meets step s (ops ++ ops') Q)
    (hr : Run step s ops s') : Meets step s' ops' Q := by
  rintro ops₁ op ops₂ s₁ rfl hr₁
  exact h (ops ++ ops₁) op ops₂ s₁ (by simp) (append_iff.mpr ⟨s', hr, hr₁⟩)

/-- A condition on the steps of a run is one on the steps of its start. -/
theorem Meets.take {Q : S → L → Prop} (h : Meets step s (ops ++ ops') Q) :
    Meets step s ops Q := by
  rintro ops₁ op ops₂ s₁ rfl hr₁
  exact h ops₁ op (ops₂ ++ ops') s₁ (by simp) hr₁

/-- A run of a partial function. -/
theorem of_foldlM {f : S → L → Option S} (h : ops.foldlM f s = some s') :
    Run (fun s op s' => f s op = some s') s ops s' := by
  induction ops generalizing s with
  | nil => exact nil_iff.mpr (Option.some.inj h).symm
  | cons op ops ih =>
    rw [List.foldlM_cons] at h
    obtain ⟨t, ht, hrest⟩ := Option.bind_eq_some_iff.mp h
    exact .cons ht (ih hrest)

/-- A run of functions is a function. -/
theorem deterministic (hdet : ∀ s op s₁ s₂, step s op s₁ → step s op s₂ → s₁ = s₂)
    (h : Run step s ops s') (h' : Run step s ops s'') : s' = s'' := by
  induction h with
  | nil => exact (nil_iff.mp h').symm
  | cons hs _ ih =>
    obtain ⟨u, hu, hr⟩ := cons_iff.mp h'
    obtain rfl := hdet _ _ _ _ hs hu
    exact ih hr

/-- An invariant of the steps that meet `Q` holds along a run that meets `Q`. -/
theorem invariant_of_meets {I : S → Prop} {Q : S → L → Prop}
    (hstep : ∀ s op s', I s → step s op s' → Q s op → I s') (h : Run step s ops s')
    (h₀ : I s) (hQ : Meets step s ops Q) : I s' := by
  induction h with
  | nil => exact h₀
  | cons hs _ ih => exact ih (hstep _ _ _ h₀ hs (hQ [] _ _ _ rfl .nil)) (hQ.tail hs)

/-- **The exact condition.** If the steps that meet `Q` keep an invariant inside
`P`, and a step that ends in `P` meets `Q`, then a run stays in `P` if and only if
it meets `Q`. -/
theorem always_iff_meets {I P : S → Prop} {Q : S → L → Prop}
    (hdet : ∀ s op s₁ s₂, step s op s₁ → step s op s₂ → s₁ = s₂)
    (hstep : ∀ s op s', I s → step s op s' → Q s op → I s') (hP : ∀ s, I s → P s)
    (hbad : ∀ s op s', step s op s' → P s' → Q s op) (h : Run step s ops s') (h₀ : I s) :
    Always step s ops P ↔ Meets step s ops Q := by
  constructor
  · -- the step at the cut ends in `P`, because the run does up to there
    rintro hall ops₁ op ops₂ s₁ rfl hr
    obtain ⟨t, ht, hrest⟩ := append_iff.mp h
    obtain rfl := deterministic hdet ht hr
    obtain ⟨u, hu, -⟩ := cons_iff.mp hrest
    have hpre : Run step s (ops₁ ++ [op]) u := append_iff.mpr ⟨t, ht, .cons hu .nil⟩
    exact hbad t op u hu (hall (ops₁ ++ [op]) ops₂ u (by simp) hpre)
  · -- a prefix of a run that meets `Q` meets `Q`
    rintro hQ ops₁ ops₂ s₁ rfl hr
    exact hP s₁ (invariant_of_meets hstep hr h₀ hQ.take)

end Run

end Jos
