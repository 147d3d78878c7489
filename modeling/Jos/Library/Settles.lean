import Jos.Library.Logged

/-!
# Loops that come to an end

`Logged.whileLoop` is a loop that may run out of fuel. `Settles P E n x Q` says that from `n` units
of fuel on the computation `x` does not depend on the fuel any more: it ends with a value that
satisfies `Q` or stops for a reason in `E`, and everything in its log satisfies `P`. Where `E` is
empty it ends with a value (`Settles.value`).

The rules follow the computation (`Settles.pure`, `Settles.step`, `Settles.bind`). The rule of the
loop (`Settles.whileLoop`) asks for an invariant and for a measure that the body makes smaller, and
the fuel has to be above the measure. No other proof has to look at the fuel.
-/

namespace Jos

variable {ω ε α β : Type}

/-- `while (cond) body`, with a condition that may leave a log. Without fuel it stops with `e`. -/
def Logged.whileLoop (cond : α → Logged ω ε Bool) (body : α → Logged ω ε α) (e : ε) :
    ℕ → α → Logged ω ε α
  | 0, _ => Logged.stop e
  | fuel + 1, a => do
    let again ← cond a
    if again then
      let a ← body a
      whileLoop cond body e fuel a
    else pure a

/-- How a computation ended: with a value that satisfies `Q`, or for a reason in `E`. -/
def EndsIn (E : ε → Prop) (Q : α → Prop) (r : Except ε α) : Prop :=
  (∀ a, r = .ok a → Q a) ∧ ∀ e, r = .error e → E e

theorem endsIn_ok {E : ε → Prop} {Q : α → Prop} {a : α} : EndsIn E Q (.ok a) ↔ Q a :=
  ⟨fun h => h.1 a rfl, fun h => ⟨fun _ ha => Except.ok.inj ha ▸ h, fun _ he => by cases he⟩⟩

theorem endsIn_error {E : ε → Prop} {Q : α → Prop} {e : ε} : EndsIn E Q (.error e) ↔ E e :=
  ⟨fun h => h.2 e rfl, fun h => ⟨fun _ ha => (by cases ha), fun _ he => Except.error.inj he ▸ h⟩⟩

/-- With at least `n` units of fuel the computation ends, and always in the same way. -/
def Settles (P : ω → Prop) (E : ε → Prop) (n : ℕ) (x : ℕ → Logged ω ε α) (Q : α → Prop) : Prop :=
  ∃ log result, (∀ fuel, n ≤ fuel → x fuel = ⟨log, result⟩) ∧ (∀ e ∈ log, P e) ∧ EndsIn E Q result

namespace Settles

variable {P : ω → Prop} {E : ε → Prop} {n : ℕ} {x : ℕ → Logged ω ε α} {Q : α → Prop}
  {R : β → Prop}

theorem pure {a : α} (h : Q a) : Settles P E n (fun _ => (Pure.pure a : Logged ω ε α)) Q :=
  ⟨[], .ok a, fun _ _ => rfl, fun _ he => absurd he List.not_mem_nil, endsIn_ok.mpr h⟩

/-- A computation that does not look at the fuel. -/
theorem step {y : Logged ω ε α} (hlog : ∀ e ∈ y.log, P e) (h : EndsIn E Q y.result) :
    Settles P E n (fun _ => y) Q := ⟨y.log, y.result, fun _ _ => rfl, hlog, h⟩

theorem bind {f : α → ℕ → Logged ω ε β} (h : Settles P E n x Q)
    (hf : ∀ a, Q a → Settles P E n (f a) R) :
    Settles P E n (fun fuel => x fuel >>= fun a => f a fuel) R := by
  obtain ⟨log, result, hx, hlog, hend⟩ := h
  cases result with
  | ok a =>
    obtain ⟨log', result', hfa, hlog', hend'⟩ := hf a (endsIn_ok.mp hend)
    refine ⟨log ++ log', result', fun fuel hfuel => ?_, fun e he => ?_, hend'⟩
    · dsimp only
      rw [hx fuel hfuel, Logged.mk_bind, hfa fuel hfuel]
    · obtain he | he := List.mem_append.mp he
      · exact hlog e he
      · exact hlog' e he
  | error e =>
    refine ⟨log, .error e, fun fuel hfuel => ?_, hlog, endsIn_error.mpr (endsIn_error.mp hend)⟩
    dsimp only
    rw [hx fuel hfuel, Logged.bind_of_error rfl]

theorem weaken {Q' : α → Prop} (h : Settles P E n x Q) (hQ : ∀ a, Q a → Q' a) :
    Settles P E n x Q' := by
  obtain ⟨log, result, hx, hlog, hok, herror⟩ := h
  exact ⟨log, result, hx, hlog, fun a ha => hQ a (hok a ha), herror⟩

/-- Without a reason to stop there is a value. -/
theorem value (h : Settles P (fun _ : ε => False) n x Q) :
    ∃ log a, (∀ fuel, n ≤ fuel → x fuel = ⟨log, .ok a⟩) ∧ (∀ e ∈ log, P e) ∧ Q a := by
  obtain ⟨log, result, hx, hlog, hend⟩ := h
  cases result with
  | ok a => exact ⟨log, a, hx, hlog, endsIn_ok.mp hend⟩
  | error e => exact (endsIn_error.mp hend).elim

/-- A loop with an invariant and a measure. `Go` and `Done` are what the condition says when it
holds and when it does not. -/
theorem whileLoop {cond : α → Logged ω ε Bool} {body : ℕ → α → Logged ω ε α} {e : ε}
    {Inv Go Done : α → Prop} {μ : α → ℕ}
    (hcond : ∀ a, Inv a → Settles P E n (fun _ => cond a) fun b => if b then Go a else Done a)
    (hbody : ∀ a, Inv a → Go a →
      Settles P E n (fun fuel => body fuel a) fun a' => Inv a' ∧ μ a' < μ a)
    {a : α} (ha : Inv a) (hn : μ a < n) :
    Settles P E n (fun fuel => Logged.whileLoop cond (body fuel) e fuel a)
      fun a' => Inv a' ∧ Done a' := by
  -- the counter of the loop goes down, and the fuel of the body stays as it is
  suffices hrun : ∃ log result, (∀ fuel k, n ≤ fuel → μ a < k →
      Logged.whileLoop cond (body fuel) e k a = ⟨log, result⟩) ∧ (∀ e ∈ log, P e) ∧
        EndsIn E (fun a' => Inv a' ∧ Done a') result by
    obtain ⟨log, result, hloop, hlog, hend⟩ := hrun
    refine ⟨log, result, fun fuel hfuel => ?_, hlog, hend⟩
    exact hloop fuel fuel hfuel (Nat.lt_of_lt_of_le hn hfuel)
  clear hn
  induction hμ : μ a using Nat.strongRecOn generalizing a with
  | _ m ih =>
    subst hμ
    obtain ⟨log₁, result₁, hc, hlog₁, hb⟩ := hcond a ha
    dsimp only at hc
    cases result₁ with
    | error e₁ =>
      refine ⟨log₁, .error e₁, fun fuel k hfuel hk => ?_, hlog₁,
        endsIn_error.mpr (endsIn_error.mp hb)⟩
      obtain ⟨k, rfl⟩ := Nat.exists_eq_add_one_of_ne_zero (Nat.ne_zero_of_lt hk)
      rw [Logged.whileLoop, hc fuel hfuel, Logged.bind_of_error rfl]
    | ok b =>
    replace hb := endsIn_ok.mp hb
    cases b with
    | false =>
      refine ⟨log₁, .ok a, fun fuel k hfuel hk => ?_, hlog₁, endsIn_ok.mpr ⟨ha, hb⟩⟩
      obtain ⟨k, rfl⟩ := Nat.exists_eq_add_one_of_ne_zero (Nat.ne_zero_of_lt hk)
      rw [Logged.whileLoop, hc fuel hfuel, Logged.mk_bind]
      exact congrArg (fun l => (⟨l, .ok a⟩ : Logged ω ε α)) (List.append_nil log₁)
    | true =>
      obtain ⟨log₂, result₂, hrun₂, hlog₂, hend₂⟩ := hbody a ha hb
      dsimp only at hrun₂
      cases result₂ with
      | error e₂ =>
        refine ⟨log₁ ++ log₂, .error e₂, fun fuel k hfuel hk => ?_,
          List.forall_mem_append.mpr ⟨hlog₁, hlog₂⟩, endsIn_error.mpr (endsIn_error.mp hend₂)⟩
        obtain ⟨k, rfl⟩ := Nat.exists_eq_add_one_of_ne_zero (Nat.ne_zero_of_lt hk)
        rw [Logged.whileLoop, hc fuel hfuel, Logged.mk_bind, if_pos rfl, hrun₂ fuel hfuel,
          Logged.bind_of_error rfl]
      | ok a₂ =>
        obtain ⟨ha₂, hless⟩ := endsIn_ok.mp hend₂
        obtain ⟨log₃, result₃, hloop, hlog₃, hend₃⟩ := ih (μ a₂) hless ha₂ rfl
        refine ⟨log₁ ++ (log₂ ++ log₃), result₃, fun fuel k hfuel hk => ?_,
          List.forall_mem_append.mpr ⟨hlog₁, List.forall_mem_append.mpr ⟨hlog₂, hlog₃⟩⟩, hend₃⟩
        obtain ⟨k, rfl⟩ := Nat.exists_eq_add_one_of_ne_zero (Nat.ne_zero_of_lt hk)
        rw [Logged.whileLoop, hc fuel hfuel, Logged.mk_bind, if_pos rfl, hrun₂ fuel hfuel,
          Logged.mk_bind, hloop fuel k hfuel (by omega)]

end Settles

end Jos
