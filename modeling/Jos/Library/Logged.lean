import Mathlib.Data.List.Basic

/-!
# Computations that leave a log

`Logged ω ε α` is a computation that writes a log of `ω` and ends with a value of
`α` or stops with `ε`. What was logged before it stopped stays in the log, so the
log of a sequence is the log of its first part followed by that of the second, if
the second is reached at all (`Logged.bind_of_ok`, `Logged.bind_of_error`).

`Logged.Yields f x a out` says what a computation ends with and what is seen of its log, and its
rules follow the computation.
-/

namespace Jos

universe u

/-- A log and how the computation ended. -/
@[ext]
structure Logged (ω ε : Type) (α : Type u) where
  log : List ω
  result : Except ε α

namespace Logged

variable {ω ε : Type} {α β : Type u}

/-- Log some entries. -/
def tell (l : List ω) : Logged ω ε PUnit := ⟨l, .ok ⟨⟩⟩

/-- Stop. -/
def stop (e : ε) : Logged ω ε α := ⟨[], .error e⟩

instance : Monad (Logged ω ε) where
  pure a := ⟨[], .ok a⟩
  bind x f :=
    match x.result with
    | .ok a => ⟨x.log ++ (f a).log, (f a).result⟩
    | .error e => ⟨x.log, .error e⟩

@[simp] theorem log_pure (a : α) : (pure a : Logged ω ε α).log = [] := rfl

@[simp] theorem result_pure (a : α) : (pure a : Logged ω ε α).result = .ok a := rfl

@[simp] theorem pure_bind (a : α) (f : α → Logged ω ε β) : (pure a >>= f) = f a := rfl

theorem mk_bind (l : List ω) (a : α) (f : α → Logged ω ε β) :
    ((⟨l, .ok a⟩ : Logged ω ε α) >>= f) = ⟨l ++ (f a).log, (f a).result⟩ := rfl

/-- After a computation that ended with a value the next one runs. -/
theorem bind_of_ok {x : Logged ω ε α} {a : α} (h : x.result = .ok a) (f : α → Logged ω ε β) :
    (x >>= f) = ⟨x.log ++ (f a).log, (f a).result⟩ := by
  change (match x.result with | .ok a => _ | .error e => _) = _
  rw [h]

/-- After one that stopped nothing runs. -/
theorem bind_of_error {x : Logged ω ε α} {e : ε} (h : x.result = .error e)
    (f : α → Logged ω ε β) : (x >>= f) = ⟨x.log, .error e⟩ := by
  change (match x.result with | .ok a => _ | .error e => _) = _
  rw [h]

/-- The log of a sequence begins with the log of its first part. -/
theorem log_bind (x : Logged ω ε α) (f : α → Logged ω ε β) :
    ∃ l, (x >>= f).log = x.log ++ l := by
  cases h : x.result with
  | ok a => exact ⟨(f a).log, by rw [bind_of_ok h]⟩
  | error e => exact ⟨[], by rw [bind_of_error h, List.append_nil]⟩

/-- Changing the value does not change the log. -/
theorem log_bind_pure (x : Logged ω ε α) (g : α → β) :
    (x >>= fun a => pure (g a)).log = x.log := by
  cases h : x.result with
  | ok a => rw [bind_of_ok h, log_pure, List.append_nil]
  | error e => rw [bind_of_error h]

/-- A value that is only translated before it is used. -/
theorem bind_pure_bind {γ : Type u} (x : Logged ω ε α) (g : α → β) (f : β → Logged ω ε γ) :
    ((x >>= fun a => pure (g a)) >>= f) = x >>= fun a => f (g a) := by
  cases h : x.result with
  | ok a => rw [bind_of_ok h, bind_of_ok h, result_pure, mk_bind, log_pure, List.append_nil]
  | error e => rw [bind_of_error h, bind_of_error h, bind_of_error rfl]

/-- How a sequence ends does not depend on the log. -/
theorem result_bind (x : Logged ω ε α) (f : α → Logged ω ε β) :
    (x >>= f).result = x.result >>= fun a => (f a).result := by
  cases h : x.result with
  | ok a => rw [bind_of_ok h]; rfl
  | error e => rw [bind_of_error h]; rfl

/-- A sequence ends with a value when both of its parts do. -/
theorem result_bind_eq_ok {x : Logged ω ε α} {f : α → Logged ω ε β} {b : β} :
    (x >>= f).result = .ok b ↔ ∃ a, x.result = .ok a ∧ (f a).result = .ok b := by
  cases h : x.result with
  | ok a =>
    rw [bind_of_ok h]
    exact ⟨fun hb => ⟨a, rfl, hb⟩, fun ⟨_, ha, hb⟩ => Except.ok.inj ha ▸ hb⟩
  | error e =>
    rw [bind_of_error h]
    exact iff_of_false (fun hb => by cases hb) fun ⟨_, ha, _⟩ => by cases ha

/-- The log of a sequence that ends with a value. -/
theorem bind_eq_mk {x : Logged ω ε α} {f : α → Logged ω ε β} {l : List ω} {b : β} :
    (x >>= f) = ⟨l, .ok b⟩ ↔
      ∃ l₁ a l₂, x = ⟨l₁, .ok a⟩ ∧ f a = ⟨l₂, .ok b⟩ ∧ l = l₁ ++ l₂ := by
  constructor
  · intro h
    obtain ⟨a, ha, hb⟩ := result_bind_eq_ok.mp (congrArg result h)
    refine ⟨x.log, a, (f a).log, by rw [← ha], by rw [← hb], ?_⟩
    rw [bind_of_ok ha] at h
    exact (congrArg log h).symm
  · rintro ⟨l₁, a, l₂, rfl, hf, rfl⟩
    rw [mk_bind, hf]

/-- A loop ends with a value only if its body does for every element. -/
theorem result_forM_eq_ok {δ : Type} {l : List δ} {g : δ → Logged ω ε Unit} {u : Unit}
    (h : (l.forM g).result = .ok u) : ∀ d ∈ l, (g d).result = .ok () := by
  induction l with
  | nil => exact List.forall_mem_nil _
  | cons d l ih =>
    change (g d >>= fun _ => l.forM g).result = .ok u at h
    obtain ⟨_, hd, hl⟩ := result_bind_eq_ok.mp h
    exact List.forall_mem_cons.mpr ⟨hd, ih hl⟩

section Translate

variable {ω' ε' : Type} (g : ω → ω') (h : ε → ε')

/-- The same computation as a part of one with other entries and other reasons to stop. -/
def translate (x : Logged ω ε α) : Logged ω' ε' α := ⟨x.log.map g, x.result.mapError h⟩

theorem translate_of_ok {x : Logged ω ε α} {a : α} (hx : x.result = .ok a) :
    translate g h x = ⟨x.log.map g, .ok a⟩ := by
  rw [translate, hx]
  rfl

/-- It ends with a value when the part does. -/
theorem result_translate_eq_ok {x : Logged ω ε α} {a : α} :
    (translate g h x).result = .ok a ↔ x.result = .ok a := by
  rw [translate]
  cases x.result with
  | ok b =>
    change Except.ok b = Except.ok a ↔ _
    rw [Except.ok.injEq, Except.ok.injEq]
  | error e => exact iff_of_false (fun hc => by cases hc) fun hc => by cases hc

end Translate

/-! ### What is seen of the log -/

section Yields

variable {γ : Type} {f : ω → Option γ}

/-- The computation ends with `a`, and `out` is what `f` sees of its log. -/
structure Yields (f : ω → Option γ) (x : Logged ω ε α) (a : α) (out : List γ) : Prop where
  returns : x.result = .ok a
  seen : x.log.filterMap f = out

theorem Yields.pure (a : α) : Yields f (pure a : Logged ω ε α) a [] := ⟨rfl, rfl⟩

/-- What is seen of a sequence is what is seen of its parts. -/
theorem Yields.bind {x : Logged ω ε α} {a : α} {out out' : List γ} {g : α → Logged ω ε β} {b : β}
    (hx : Yields f x a out) (hg : Yields f (g a) b out') : Yields f (x >>= g) b (out ++ out') := by
  rw [bind_of_ok hx.returns]
  exact ⟨hg.returns, by rw [List.filterMap_append, hx.seen, hg.seen]⟩

/-- A part of which nothing is seen. -/
theorem Yields.after {x : Logged ω ε α} {a : α} {out : List γ} {g : α → Logged ω ε β} {b : β}
    (hg : Yields f (g a) b out) (hx : Yields f x a []) : Yields f (x >>= g) b out := hx.bind hg

/-- Changing the value does not change what is seen. -/
theorem Yields.bind_pure {x : Logged ω ε α} {a : α} {out : List γ} (hx : Yields f x a out)
    (g : α → β) : Yields f (x >>= fun a => Pure.pure (g a)) (g a) out := by
  have hpair := hx.bind (g := fun a => Pure.pure (g a)) (.pure (g a))
  rwa [List.append_nil] at hpair

theorem Yields.forM {δ : Type} {l : List δ} {g : δ → Logged ω ε Unit} {out : δ → List γ}
    (h : ∀ d ∈ l, Yields f (g d) () (out d)) : Yields f (l.forM g) () (l.flatMap out) := by
  induction l with
  | nil => exact .pure ()
  | cons d l ih =>
    obtain ⟨hd, hl⟩ := List.forall_mem_cons.mp h
    change Yields f (g d >>= fun _ => l.forM g) () (out d ++ l.flatMap out)
    exact hd.bind (ih hl)

/-- Nothing is seen of the computation. -/
def Unseen (f : ω → Option γ) (x : Logged ω ε α) : Prop := x.log.filterMap f = []

theorem Unseen.bind {x : Logged ω ε α} {g : α → Logged ω ε β} (hx : Unseen f x)
    (hg : ∀ a, Unseen f (g a)) : Unseen f (x >>= g) := by
  cases hres : x.result with
  | ok a =>
    rw [Unseen, bind_of_ok hres, List.filterMap_append, hx, hg a]
    rfl
  | error e => rwa [Unseen, bind_of_error hres]

/-- A part of another computation is seen as it is by itself. -/
theorem Yields.translate {ω' ε' : Type} {f' : ω' → Option γ} {g : ω → ω'} {h : ε → ε'}
    {x : Logged ω ε α} {a : α} {out : List γ} (hx : Yields f x a out) (hf : ∀ e, f' (g e) = f e) :
    Yields f' (x.translate g h) a out := by
  rw [translate_of_ok g h hx.returns]
  refine ⟨rfl, ?_⟩
  rw [List.filterMap_map, ← hx.seen]
  exact congrArg (x.log.filterMap ·) (funext hf)

end Yields

end Logged

end Jos
