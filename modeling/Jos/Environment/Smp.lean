import Jos.Environment.Frame
import Jos.Kern.Trap
import Jos.Library.Run
import Jos.Memory.MemRun

/-!
# Environments on several processors

The big kernel lock makes each entry into the kernel one step: a processor runs an
environment (`env_run`), destroys one (`env_destroy`), or takes a trap from user
mode (`trap`). The steps act on the status of the environments and on the current
environment of each processor; `envRun_turn`, `envDestroy_turn` and `trap_turn` say
what each of them can do to these.

The handshake between processors is the status `ENV_DYING`: a processor that
destroys an environment which another one runs only marks it, and the other one
frees it at its next trap. `env_destroy` does not look for the mark, so a second
`env_destroy` frees the environment under the processor that runs it. This is the
only way to leave the safe states: `curenv_live_iff_handshake`.
-/

namespace Jos

variable {B : Boot} {σ σ' σ₀ : State} {cpu : ℕ} {e : Fin nenv}

/-- The status of each environment. -/
def State.status (σ : State) (e : Fin nenv) : EnvStatus := (σ.envs e).envStatus

theorem status_setEnv (σ : State) (e : Fin nenv) (v : Env) :
    (σ.setEnv e v).status = Function.update σ.status e v.envStatus := by
  ext e'
  unfold State.status
  by_cases he : e' = e
  · rw [he, setEnv_envs_self, Function.update_self]
  · rw [setEnv_envs_of_ne he, Function.update_of_ne he]

theorem curenv_setCurenv (σ : State) (cpu : ℕ) (c : Option (Fin nenv)) :
    (σ.setCurenv cpu c).curenv = Function.update σ.curenv cpu c := by
  funext cpu'
  change (Function.update σ.cpus cpu { σ.cpus cpu with cpuEnv := c } cpu').cpuEnv = _
  by_cases h : cpu' = cpu
  · rw [h, Function.update_self, Function.update_self]
  · rw [Function.update_of_ne h, Function.update_of_ne h]
    rfl

/-! ### What a step can do -/

/-- The statuses and current environments after a step. -/
structure Turn (σ' : State) (status : Fin nenv → EnvStatus) (cur : ℕ → Option (Fin nenv)) :
    Prop where
  status : σ'.status = status
  cur : σ'.curenv = cur

theorem SameTable.turn (h : SameTable σ σ') : Turn σ' σ.status σ.curenv := by
  refine ⟨?_, funext h.curenv⟩
  unfold State.status
  rw [h.envs]

theorem envFree_turn (h : envFree B cpu e σ = .ok σ') :
    Turn σ' (Function.update σ.status e .free) σ.curenv := by
  obtain ⟨henvs, -, hcur⟩ := envFree_table h
  refine ⟨?_, funext hcur⟩
  ext e'
  unfold State.status
  rw [henvs]
  by_cases he : e' = e
  · rw [he, Function.update_self, Function.update_self]
  · rw [Function.update_of_ne he, Function.update_of_ne he]

/-- `sched_yield` leaves the processor without an environment, or in the monitor. -/
theorem schedYield_turn (h : schedYield B cpu σ = .ok σ') :
    Turn σ' σ.status (Function.update σ.curenv cpu none) ∨ Turn σ' σ.status σ.curenv := by
  unfold schedYield at h
  split at h
  · obtain ⟨pa, -, rfl⟩ := map_eq_ok.mp h
    left
    have hlcr := (lcr3_table cpu pa (σ.setCurenv cpu none)).turn
    rw [curenv_setCurenv] at hlcr
    exact hlcr
  · obtain rfl := Except.ok.inj h
    exact Or.inr ⟨rfl, rfl⟩

/-- `curenv = NULL; sched_yield()`. -/
theorem dropped_turn {σ₁ : State} {status : Fin nenv → EnvStatus} {cur : ℕ → Option (Fin nenv)}
    (h₁ : Turn σ₁ status cur) (h : schedYield B cpu (σ₁.setCurenv cpu none) = .ok σ') :
    Turn σ' status (Function.update cur cpu none) := by
  have hcur : (σ₁.setCurenv cpu none).curenv = Function.update cur cpu none := by
    rw [curenv_setCurenv, h₁.cur]
  -- in the monitor `curenv` is already null, otherwise it is cleared once more
  obtain ht | ht := schedYield_turn h
  · refine ⟨ht.status.trans h₁.status, ?_⟩
    rw [ht.cur, hcur, Function.update_idem]
  · exact ⟨ht.status.trans h₁.status, ht.cur.trans hcur⟩

/-- `env_destroy` marks an environment that runs elsewhere, and frees every other
one. -/
theorem envDestroy_turn (h : envDestroy B cpu e σ = .ok σ') :
    (σ.status e = .running ∧ σ.curenv cpu ≠ some e ∧
      Turn σ' (Function.update σ.status e .dying) σ.curenv) ∨
    (σ.curenv cpu = some e ∧
      Turn σ' (Function.update σ.status e .free) (Function.update σ.curenv cpu none)) ∨
    (σ.status e ≠ .running ∧ σ.curenv cpu ≠ some e ∧
      Turn σ' (Function.update σ.status e .free) σ.curenv) := by
  unfold envDestroy at h
  split at h
  · next hmark =>
    obtain rfl := Except.ok.inj h
    exact Or.inl ⟨hmark.1, hmark.2, status_setEnv _ _ _, rfl⟩
  · next hfree =>
    right
    obtain ⟨σ₁, hf, hrest⟩ := bind_eq_ok.mp h
    have hturn := envFree_turn hf
    have hcur : σ₁.curenv cpu = σ.curenv cpu := congrFun hturn.cur cpu
    rw [hcur] at hrest
    by_cases hown : σ.curenv cpu = some e
    · rw [if_pos hown] at hrest
      exact Or.inl ⟨hown, dropped_turn hturn hrest⟩
    · -- a running environment would have been marked
      rw [if_neg hown] at hrest
      obtain rfl := Except.ok.inj hrest
      exact Or.inr ⟨fun hr => hfree ⟨hr, hown⟩, hown, hturn⟩

/-- The statuses after `env_run(e)` on a processor that had `c`: what it had goes
back to `ENV_RUNNABLE` if it was running. -/
def statusAfterRun (status : Fin nenv → EnvStatus) (c : Option (Fin nenv)) (e : Fin nenv) :
    Fin nenv → EnvStatus :=
  Function.update
    (fun e' => if c = some e' ∧ status e' = .running then .runnable else status e') e .running

theorem envPopTf_turn (cpu : ℕ) (e : Fin nenv) (σ : State) :
    Turn (envPopTf cpu e σ) σ.status σ.curenv := by
  refine ⟨?_, rfl⟩
  unfold envPopTf
  rw [status_setEnv]
  exact Function.update_eq_self e σ.status

/-- The start of `env_run`: what the processor ran goes back. -/
def putBack (cpu : ℕ) (σ : State) : State :=
  match σ.curenv cpu with
  | none => σ
  | some c => if (σ.envs c).envStatus = .running then
      σ.setEnv c { σ.envs c with envStatus := .runnable } else σ

/-- `env_run` makes `e` the current environment. -/
def State.take (σ : State) (cpu : ℕ) (e : Fin nenv) : State :=
  (σ.setCurenv cpu (some e)).setEnv e
    { σ.envs e with envStatus := .running, envRuns := (σ.envs e).envRuns + 1#32 }

theorem envRun_eq (cpu : ℕ) (e : Fin nenv) (σ : State) :
    envRun cpu e σ = (do
      let pa ← paddr (((putBack cpu σ).take cpu e).envs e).envPgdir
      return envPopTf cpu e (lcr3 cpu pa ((putBack cpu σ).take cpu e))) := rfl

theorem putBack_turn (cpu : ℕ) (σ : State) : Turn (putBack cpu σ)
    (fun e' => if σ.curenv cpu = some e' ∧ σ.status e' = .running then .runnable
      else σ.status e') σ.curenv := by
  unfold putBack
  cases hc : σ.curenv cpu with
  | none => exact ⟨by ext e'; simp, rfl⟩
  | some c =>
    -- only a running environment is put back; any other keeps its status
    by_cases hr : (σ.envs c).envStatus = .running
    · simp only [if_pos hr]
      refine ⟨?_, rfl⟩
      ext e'
      rw [status_setEnv]
      by_cases hec : e' = c
      · rw [hec, Function.update_self, if_pos ⟨rfl, hr⟩]
      · rw [Function.update_of_ne hec, if_neg fun hx => hec (Option.some.inj hx.1).symm]
    · simp only [if_neg hr]
      refine ⟨?_, rfl⟩
      ext e'
      rw [if_neg]
      rintro ⟨hx, hrun⟩
      obtain rfl := Option.some.inj hx
      exact hr hrun

theorem take_turn (σ : State) (cpu : ℕ) (e : Fin nenv) : Turn (σ.take cpu e)
    (Function.update σ.status e .running) (Function.update σ.curenv cpu (some e)) := by
  refine ⟨?_, ?_⟩
  · unfold State.take
    rw [status_setEnv]
    rfl
  · change (σ.setCurenv cpu (some e)).curenv = _
    rw [curenv_setCurenv]

theorem envRun_turn (h : envRun cpu e σ = .ok σ') :
    Turn σ' (statusAfterRun σ.status (σ.curenv cpu) e) (Function.update σ.curenv cpu (some e)) := by
  rw [envRun_eq] at h
  obtain ⟨pa, -, hret⟩ := bind_eq_ok.mp h
  obtain rfl := Except.ok.inj hret
  have hback := putBack_turn cpu σ
  have htake := take_turn (putBack cpu σ) cpu e
  have hlcr := (lcr3_table cpu pa ((putBack cpu σ).take cpu e)).turn
  have hpop := envPopTf_turn cpu e (lcr3 cpu pa ((putBack cpu σ).take cpu e))
  constructor
  · rw [hpop.status, hlcr.status, htake.status, hback.status]
    rfl
  · rw [hpop.cur, hlcr.cur, htake.cur, hback.cur]

/-- Running the environment that runs changes nothing. -/
theorem statusAfterRun_self {status : Fin nenv → EnvStatus} (h : status e = .running) :
    statusAfterRun status (some e) e = status := by
  ext e'
  unfold statusAfterRun
  by_cases he : e' = e
  · rw [he, Function.update_self, h]
  · rw [Function.update_of_ne he, if_neg fun hx => he (Option.some.inj hx.1).symm]

/-- A processor that destroys the environment it runs frees it and drops it. -/
theorem envDestroy_own_turn (hcur : σ.curenv cpu = some e) (h : envDestroy B cpu e σ = .ok σ') :
    Turn σ' (Function.update σ.status e .free) (Function.update σ.curenv cpu none) := by
  obtain ⟨-, hne, -⟩ | ⟨-, ht⟩ | ⟨-, hne, -⟩ := envDestroy_turn h
  · exact absurd hcur hne
  · exact ht
  · exact absurd hcur hne

theorem trapDispatch_turn {tf : Trapframe} {r : Dispatched} (hcur : σ.curenv cpu = some e)
    (h : trapDispatch B cpu e tf σ = .ok r) :
    r = .back σ ∨ ∃ σ', r = .left σ' ∧
      Turn σ' (Function.update σ.status e .free) (Function.update σ.curenv cpu none) := by
  have hdestroy : (envDestroy B cpu e σ).map Dispatched.left = .ok r → ∃ σ', r = .left σ' ∧
      Turn σ' (Function.update σ.status e .free) (Function.update σ.curenv cpu none) := by
    intro hd
    obtain ⟨σ₁, hrun, rfl⟩ := map_eq_ok.mp hd
    exact ⟨σ₁, rfl, envDestroy_own_turn hcur hrun⟩
  unfold trapDispatch at h
  split at h
  · cases h
  · split at h
    · exact Or.inr (hdestroy h)
    · split at h
      · exact Or.inl (Except.ok.inj h).symm
      · split at h
        · exact Or.inl (Except.ok.inj h).symm
        · exact Or.inr (hdestroy h)

/-- A trap from user mode frees and drops the environment of the processor, goes
back to it, or just drops it. -/
theorem trap_turn {tf : Trapframe} (h : trap B cpu tf σ = .ok σ') :
    ∃ e, σ.curenv cpu = some e ∧
      (Turn σ' (Function.update σ.status e .free) (Function.update σ.curenv cpu none) ∨
        Turn σ' σ.status σ.curenv ∨ Turn σ' σ.status (Function.update σ.curenv cpu none)) := by
  unfold trap at h
  split at h
  · cases h
  · next e hcur =>
    refine ⟨e, hcur, ?_⟩
    split at h
    · -- a zombie is reaped
      obtain ⟨σ₁, hf, hyield⟩ := bind_eq_ok.mp h
      exact Or.inl (dropped_turn (envFree_turn hf) hyield)
    · set σ₁ := σ.setEnv e { σ.envs e with envTf := tf } with hσ₁
      have hsame : σ₁.status = σ.status := by
        rw [hσ₁, status_setEnv]
        exact Function.update_eq_self e σ.status
      have hcur₁ : σ₁.curenv = σ.curenv := rfl
      obtain ⟨r, hdisp, hrest⟩ := bind_eq_ok.mp h
      obtain rfl | ⟨σ₂, rfl, ht⟩ := trapDispatch_turn (by rw [hcur₁, hcur]) hdisp
      · -- the handler came back: the environment runs on, or the processor halts
        right
        have hc : σ₁.curenv cpu = some e := hcur
        simp only [hc] at hrest
        split at hrest
        · next hrunning =>
          left
          have ht := envRun_turn hrest
          rw [hc, statusAfterRun_self hrunning, hcur₁, hsame, ← hcur,
            Function.update_eq_self] at ht
          exact ht
        · have hy := schedYield_turn hrest
          rw [hsame, hcur₁] at hy
          exact hy.symm
      · -- the handler destroyed the environment
        obtain rfl := Except.ok.inj hrest
        rw [hsame, hcur₁] at ht
        exact Or.inl ht

/-! ### The steps of the processors -/

/-- An entry into the kernel on one processor. -/
inductive SmpOp where
  | run (cpu : ℕ) (e : Fin nenv)
  | destroy (cpu : ℕ) (e : Fin nenv)
  | trap (cpu : ℕ) (tf : Trapframe)

/-- One entry, when its caller may do it and it comes to an end. -/
def SmpStep (B : Boot) (σ : State) : SmpOp → State → Prop
  | .run cpu e, σ' =>
    (σ.status e = .runnable ∨ σ.status e = .running ∧ σ.curenv cpu = some e) ∧
      envRun cpu e σ = .ok σ'
  | .destroy cpu e, σ' => Live σ e ∧ envDestroy B cpu e σ = .ok σ'
  | .trap cpu tf, σ' => Jos.trap B cpu tf σ = .ok σ'

theorem SmpStep.deterministic {op : SmpOp} {σ₁ σ₂ : State} (h₁ : SmpStep B σ op σ₁)
    (h₂ : SmpStep B σ op σ₂) : σ₁ = σ₂ := by
  cases op with
  | run cpu e => exact ok_unique h₁.2 h₂.2
  | destroy cpu e => exact ok_unique h₁.2 h₂.2
  | trap cpu tf => exact ok_unique h₁ h₂

/-- The current environment of every processor is in use. -/
def CurenvLive (σ : State) : Prop := ∀ cpu e, σ.curenv cpu = some e → Live σ e

/-- No environment is destroyed that waits to be freed by another processor. -/
def Handshake (σ : State) : SmpOp → Prop
  | .destroy cpu e => ¬(σ.status e = .dying ∧ ∃ cpu', cpu' ≠ cpu ∧ σ.curenv cpu' = some e)
  | _ => True

/-- What a processor runs is running or a zombie, and it alone runs it. -/
structure SmpInv (σ : State) : Prop where
  busy : ∀ cpu e, σ.curenv cpu = some e → σ.status e = .running ∨ σ.status e = .dying
  alone : ∀ cpu cpu' e, σ.curenv cpu = some e → σ.curenv cpu' = some e → cpu' = cpu

namespace SmpInv

theorem curenvLive (h : SmpInv σ) : CurenvLive σ := by
  intro cpu e hcur hfree
  obtain hr | hd := h.busy cpu e hcur
  · exact absurd (hr.symm.trans hfree) (by decide)
  · exact absurd (hd.symm.trans hfree) (by decide)

/-- An environment leaves the processors: nobody else runs it. -/
theorem drop (h : SmpInv σ) {status : Fin nenv → EnvStatus}
    (ht : Turn σ' status (Function.update σ.curenv cpu none))
    (hst : ∀ cpu' e', cpu' ≠ cpu → σ.curenv cpu' = some e' → status e' = σ.status e') :
    SmpInv σ' := by
  have hcur : ∀ cpu' e', σ'.curenv cpu' = some e' → cpu' ≠ cpu ∧ σ.curenv cpu' = some e' := by
    intro cpu' e' hc
    rw [ht.cur] at hc
    by_cases hcc : cpu' = cpu
    · rw [hcc, Function.update_self] at hc
      cases hc
    · exact ⟨hcc, by rwa [Function.update_of_ne hcc] at hc⟩
  refine ⟨?_, fun c c' e' hc hc' => h.alone c c' e' (hcur c e' hc).2
    (hcur c' e' hc').2⟩
  intro cpu' e' hc
  obtain ⟨hne, hc⟩ := hcur cpu' e' hc
  rw [ht.status, hst cpu' e' hne hc]
  exact h.busy cpu' e' hc

/-- The statuses change and the processors keep what they run. -/
theorem keep (h : SmpInv σ) {status : Fin nenv → EnvStatus} (ht : Turn σ' status σ.curenv)
    (hst : ∀ cpu e, σ.curenv cpu = some e → status e = .running ∨ status e = .dying) :
    SmpInv σ' where
  busy cpu e hc := by
    rw [ht.cur] at hc
    rw [ht.status]
    exact hst cpu e hc
  alone c c' e hc hc' := by
    rw [ht.cur] at hc hc'
    exact h.alone c c' e hc hc'

theorem envRun (h : SmpInv σ)
    (hpre : σ.status e = .runnable ∨ σ.status e = .running ∧ σ.curenv cpu = some e)
    (hrun : Jos.envRun cpu e σ = .ok σ') : SmpInv σ' := by
  have ht := envRun_turn hrun
  -- no other processor runs `e`
  have hother : ∀ cpu', cpu' ≠ cpu → σ.curenv cpu' ≠ some e := by
    intro cpu' hne hc
    obtain hr | ⟨-, hown⟩ := hpre
    · obtain hb | hb := h.busy cpu' e hc
      · exact absurd (hb.symm.trans hr) (by decide)
      · exact absurd (hb.symm.trans hr) (by decide)
    · exact hne (h.alone cpu cpu' e hown hc)
  have hcur : ∀ cpu' e', σ'.curenv cpu' = some e' →
      cpu' = cpu ∧ e' = e ∨ cpu' ≠ cpu ∧ e' ≠ e ∧ σ.curenv cpu' = some e' := by
    intro cpu' e' hc
    rw [ht.cur] at hc
    by_cases hcc : cpu' = cpu
    · rw [hcc, Function.update_self] at hc
      exact Or.inl ⟨hcc, (Option.some.inj hc).symm⟩
    · rw [Function.update_of_ne hcc] at hc
      exact Or.inr ⟨hcc, fun he => hother cpu' hcc (he ▸ hc), hc⟩
  constructor
  · intro cpu' e' hc
    rw [ht.status]
    unfold statusAfterRun
    obtain ⟨-, rfl⟩ | ⟨hne, hee, hc⟩ := hcur cpu' e' hc
    · rw [Function.update_self]
      exact Or.inl rfl
    · -- what another processor runs was not put back
      rw [Function.update_of_ne hee, if_neg]
      · exact h.busy cpu' e' hc
      · exact fun hx => hne (h.alone cpu cpu' e' hx.1 hc)
  · intro c c' e' hc hc'
    obtain ⟨rfl, rfl⟩ | ⟨-, hee, hc⟩ := hcur c e' hc
    · obtain ⟨rfl, -⟩ | ⟨-, hee, -⟩ := hcur c' e' hc'
      · rfl
      · exact absurd rfl hee
    · obtain ⟨-, rfl⟩ | ⟨-, -, hc'⟩ := hcur c' e' hc'
      · exact absurd rfl hee
      · exact h.alone c c' e' hc hc'

/-- A processor frees the environment it runs and drops it. -/
theorem freed (h : SmpInv σ) (hown : σ.curenv cpu = some e)
    (ht : Turn σ' (Function.update σ.status e .free) (Function.update σ.curenv cpu none)) :
    SmpInv σ' := by
  apply h.drop ht
  intro cpu' e' hne hc
  rw [Function.update_of_ne]
  rintro rfl
  exact hne (h.alone cpu cpu' e' hown hc)

theorem envDestroy (h : SmpInv σ) (hs : Handshake σ (.destroy cpu e))
    (hrun : Jos.envDestroy B cpu e σ = .ok σ') : SmpInv σ' := by
  obtain ⟨hr, -, ht⟩ | ⟨hown, ht⟩ | ⟨hnr, hne, ht⟩ := envDestroy_turn hrun
  · -- it runs elsewhere and becomes a zombie there
    apply h.keep ht
    intro cpu' e' hc
    by_cases hee : e' = e
    · rw [hee, Function.update_self]
      exact Or.inr rfl
    · rw [Function.update_of_ne hee]
      exact h.busy cpu' e' hc
  · exact h.freed hown ht
  · -- it is not current anywhere: it does not run, and it is no zombie of another processor
    apply h.keep ht
    intro cpu' e' hc
    rw [Function.update_of_ne]
    · exact h.busy cpu' e' hc
    · rintro rfl
      obtain hb | hb := h.busy cpu' e' hc
      · exact hnr hb
      · exact hs ⟨hb, cpu', fun hcc => hne (hcc ▸ hc), hc⟩

theorem step (h : SmpInv σ) {op : SmpOp} (hs : SmpStep B σ op σ') (hq : Handshake σ op) :
    SmpInv σ' := by
  cases op with
  | run cpu e => exact h.envRun hs.1 hs.2
  | destroy cpu e => exact h.envDestroy hq hs.2
  | trap cpu tf =>
    obtain ⟨e, hcur, ht | ht | ht⟩ := trap_turn hs
    · exact h.freed hcur ht
    · exact h.keep ht h.busy
    · exact h.drop ht fun _ _ _ _ => rfl

end SmpInv

/-- A step that breaks the handshake frees an environment under the processor that
runs it. -/
theorem SmpStep.handshake {op : SmpOp} (hs : SmpStep B σ op σ') (hlive : CurenvLive σ') :
    Handshake σ op := by
  cases op with
  | run cpu e => trivial
  | trap cpu tf => trivial
  | destroy cpu e =>
    rintro ⟨hdying, cpu', hne, hcur⟩
    have hdead : σ'.status e = .free ∧ σ'.curenv cpu' = some e := by
      -- a zombie is not marked again, so it is freed, and the other processor keeps it
      obtain ⟨hr, -, -⟩ | ⟨-, ht⟩ | ⟨-, -, ht⟩ := envDestroy_turn hs.2
      · exact absurd (hr.symm.trans hdying) (by decide)
      · exact ⟨by rw [ht.status, Function.update_self],
          by rw [ht.cur, Function.update_of_ne hne, hcur]⟩
      · exact ⟨by rw [ht.status, Function.update_self], by rw [ht.cur, hcur]⟩
    exact hlive cpu' e hdead.2 hdead.1

/-- From any state in which no processor runs anything, a run keeps every current
environment in use if and only if none of its steps breaks the handshake. -/
theorem curenv_live_iff_handshake (hstart : ∀ cpu, σ₀.curenv cpu = none) {ops : List SmpOp}
    (hrun : Run (SmpStep B) σ₀ ops σ) :
    Run.Always (SmpStep B) σ₀ ops CurenvLive ↔ Run.Meets (SmpStep B) σ₀ ops Handshake := by
  have hinit : SmpInv σ₀ := by
    constructor
    · intro cpu e hc
      rw [hstart cpu] at hc
      cases hc
    · intro cpu cpu' e hc
      rw [hstart cpu] at hc
      cases hc
  exact Run.always_iff_meets (fun _ _ _ _ h₁ h₂ => h₁.deterministic h₂)
    (fun _ _ _ hi hs hq => hi.step hs hq) (fun _ hi => hi.curenvLive)
    (fun _ _ _ hs hlive => hs.handshake hlive) hrun hinit

/-! ### A second destroy -/

/-- A state that differs in what processors do and in fields of environments that
say nothing about memory. -/
structure SameSpaces (σ σ' : State) : Prop where
  pages : σ'.pages = σ.pages
  pageFreeList : σ'.pageFreeList = σ.pageFreeList
  mem : σ'.mem = σ.mem
  envFreeList : σ'.envFreeList = σ.envFreeList
  pgdir : ∀ e, (σ'.envs e).envPgdir = (σ.envs e).envPgdir
  link : ∀ e, (σ'.envs e).envLink = (σ.envs e).envLink
  free_iff : ∀ e, (σ'.envs e).envStatus = .free ↔ (σ.envs e).envStatus = .free

theorem SameSpaces.trans {σ'' : State} (h : SameSpaces σ σ') (h' : SameSpaces σ' σ'') :
    SameSpaces σ σ'' where
  pages := h'.pages.trans h.pages
  pageFreeList := h'.pageFreeList.trans h.pageFreeList
  mem := h'.mem.trans h.mem
  envFreeList := h'.envFreeList.trans h.envFreeList
  pgdir e := (h'.pgdir e).trans (h.pgdir e)
  link e := (h'.link e).trans (h.link e)
  free_iff e := (h'.free_iff e).trans (h.free_iff e)

/-- Writing other fields of a live environment. -/
theorem SameSpaces.setEnv {v : Env} (hlive : Live σ e) (hv : v.envStatus ≠ .free)
    (hp : v.envPgdir = (σ.envs e).envPgdir) (hl : v.envLink = (σ.envs e).envLink) :
    SameSpaces σ (σ.setEnv e v) := by
  refine ⟨rfl, rfl, rfl, rfl, fun e' => ?_, fun e' => ?_, fun e' => ?_⟩
  all_goals
    by_cases he : e' = e
    · rw [he, setEnv_envs_self]
      first
        | exact hp
        | exact hl
        | exact iff_of_false hv hlive
    · rw [setEnv_envs_of_ne he]

theorem SameSpaces.cpus {σ' : State} (h : σ' = { σ with cpus := σ'.cpus }) : SameSpaces σ σ' := by
  rw [h]
  exact ⟨rfl, rfl, rfl, rfl, fun _ => rfl, fun _ => rfl, fun _ => Iff.rfl⟩

theorem SameSpaces.dirFrame (h : SameSpaces σ σ') (a : Space) :
    dirFrame B σ' a = dirFrame B σ a := by
  cases a with
  | none => rfl
  | some e => simp only [Jos.dirFrame, h.pgdir e, h.free_iff e]

theorem SameSpaces.slots (h : SameSpaces σ σ') : slots B σ' = slots B σ :=
  slots_congr h.dirFrame (fun _ _ _ _ _ => by rw [h.mem]) (fun _ _ _ _ _ _ _ => by rw [h.mem])

theorem SameSpaces.memInv {free : List ℕ} {efree : List (Fin nenv)} (h : SameSpaces σ σ')
    (hinv : MemInv B σ free efree) : MemInv B σ' free efree := by
  -- the page references, and with them every count, are a function of the slots
  have hslots : Jos.slots B σ' = Jos.slots B σ := h.slots
  refine ⟨⟨hinv.page.congr h.pages h.pageFreeList hslots, ?_⟩, ⟨?_, ?_, ?_⟩,
    ?_, ?_⟩
  · intro p
    rw [refs_eq_of_slots hslots]
    exact hinv.bound p
  · rw [h.envFreeList, funext h.link]
    exact hinv.env.chain
  · intro e
    rw [h.free_iff]
    exact hinv.env.free_iff e
  · intro e he
    rw [h.pgdir]
    exact hinv.env.pgdir e fun hf => he ((h.free_iff e).mpr hf)
  · rw [kernLow_iff, hslots]
    exact kernLow_iff.mp hinv.low
  · rw [h.mem]
    exact hinv.self

theorem SameSpaces.putBack (σ : State) (cpu : ℕ) : SameSpaces σ (Jos.putBack cpu σ) := by
  unfold Jos.putBack
  split
  · exact .cpus rfl
  · next c hc =>
    split
    · next hr =>
      have hlive : Live σ c := fun hf => absurd (hr.symm.trans hf) (by decide)
      exact .setEnv hlive (by simp) rfl rfl
    · exact .cpus rfl

theorem SameSpaces.live_iff (h : SameSpaces σ σ') : Live σ' e ↔ Live σ e := not_congr (h.free_iff e)

/-- The start of `env_run` changes no space. -/
theorem SameSpaces.take (hlive : Live σ e) (cpu : ℕ) :
    SameSpaces σ ((Jos.putBack cpu σ).take cpu e) := by
  have hback := SameSpaces.putBack σ cpu
  have hswitch : SameSpaces (Jos.putBack cpu σ) ((Jos.putBack cpu σ).setCurenv cpu (some e)) :=
    .cpus rfl
  exact (hback.trans hswitch).trans (.setEnv (hback.live_iff.mpr hlive) (by simp) rfl rfl)

/-- A live environment can be run, if its page directory is in kernel memory. -/
theorem Live.envRun (hlive : Live σ e) (hhigh : kernbase ≤ (σ.envs e).envPgdir) (cpu : ℕ) :
    ∃ σ', Jos.envRun cpu e σ = .ok σ' ∧ SameSpaces σ σ' ∧
      (σ'.cpus cpu).cr3 = (σ.envs e).envPgdir - kernbase := by
  have htake := SameSpaces.take hlive cpu
  rw [envRun_eq]
  set σ₂ := (Jos.putBack cpu σ).take cpu e
  have hpa : paddr (σ₂.envs e).envPgdir = .ok ((σ.envs e).envPgdir - kernbase) := by
    rw [htake.pgdir]
    exact paddr_eq_ok.mpr ⟨hhigh, rfl⟩
  have hlcr : SameSpaces σ₂ (lcr3 cpu ((σ.envs e).envPgdir - kernbase) σ₂) := .cpus rfl
  have hrunning : Live (lcr3 cpu ((σ.envs e).envPgdir - kernbase) σ₂) e :=
    (htake.trans hlcr).live_iff.mpr hlive
  refine ⟨envPopTf cpu e (lcr3 cpu ((σ.envs e).envPgdir - kernbase) σ₂),
    bind_eq_ok.mpr ⟨_, hpa, rfl⟩, (htake.trans hlcr).trans (.setEnv hrunning hrunning rfl rfl), ?_⟩
  change (Function.update σ₂.cpus cpu _ cpu).cr3 = _
  rw [Function.update_self]

theorem MemInv.envRun {free : List ℕ} {efree : List (Fin nenv)} (hinv : MemInv B σ free efree)
    (hlive : Live σ e) (cpu : ℕ) : ∃ σ', Jos.envRun cpu e σ = .ok σ' ∧ SameSpaces σ σ' := by
  obtain ⟨σ', hrun, hsame, -⟩ := hlive.envRun (hinv.env.pgdir e hlive) cpu
  exact ⟨σ', hrun, hsame⟩

/-- Destroying an environment twice while another processor runs it. Only the second
`env_destroy` breaks the handshake, and it leaves that processor with a free
environment. -/
theorem destroy_twice {free : List ℕ} {efree : List (Fin nenv)} (hinv : MemInv B σ free efree)
    (hr : σ.status e = .runnable) {c c' : ℕ} (hidle : σ.curenv c' = none) (hne : c ≠ c') :
    ∃ σ₁ σ₂ σ₃, SmpStep B σ (.run c e) σ₁ ∧ SmpStep B σ₁ (.destroy c' e) σ₂ ∧
      Handshake σ₁ (.destroy c' e) ∧ SmpStep B σ₂ (.destroy c' e) σ₃ ∧ ¬CurenvLive σ₃ := by
  have hlive : Live σ e := fun hf => absurd (hr.symm.trans hf) (by decide)
  obtain ⟨σ₁, hrun, hsame⟩ := hinv.envRun hlive c
  have ht := envRun_turn hrun
  have hrunning : σ₁.status e = .running := by
    rw [ht.status]
    exact Function.update_self ..
  have hcur : σ₁.curenv c = some e := by rw [ht.cur, Function.update_self]
  have hcur' : σ₁.curenv c' = none := by rw [ht.cur, Function.update_of_ne hne.symm, hidle]
  have hlive₁ : Live σ₁ e := fun hf => absurd (hrunning.symm.trans hf) (by decide)
  -- the first one marks it
  set σ₂ := σ₁.setEnv e { σ₁.envs e with envStatus := .dying } with hσ₂
  have hnot : σ₁.curenv c' ≠ some e := by
    rw [hcur']
    exact fun hc => by cases hc
  have hmark : envDestroy B c' e σ₁ = .ok σ₂ := by
    unfold envDestroy
    exact if_pos ⟨hrunning, hnot⟩
  have hdying : σ₂.status e = .dying := by rw [hσ₂, status_setEnv, Function.update_self]
  have hlive₂ : Live σ₂ e := fun hf => absurd (hdying.symm.trans hf) (by decide)
  have hsame₂ : SameSpaces σ₁ σ₂ := SameSpaces.setEnv hlive₁ (by simp) rfl rfl
  -- the second one frees it
  obtain ⟨σ₃, -, hfree, -, -⟩ := (hsame₂.memInv (hsame.memInv hinv)).envFree c' hlive₂
  have ht₃ := envFree_turn hfree
  have hdestroy : envDestroy B c' e σ₂ = .ok σ₃ := by
    have hnr : (σ₂.envs e).envStatus ≠ .running :=
      fun hx => absurd (hdying.symm.trans hx) (by decide)
    unfold envDestroy
    rw [if_neg fun hx => hnr hx.1]
    refine bind_eq_ok.mpr ⟨σ₃, hfree, ?_⟩
    rw [congrFun ht₃.cur c', if_neg (show σ₂.curenv c' ≠ some e from hnot)]
    rfl
  refine ⟨σ₁, σ₂, σ₃, ⟨Or.inl hr, hrun⟩, ⟨hlive₁, hmark⟩, ?_, ⟨hlive₂, hdestroy⟩, ?_⟩
  · rintro ⟨hd, -⟩
    exact absurd (hrunning.symm.trans hd) (by decide)
  · intro hall
    refine hall c e ?_ ?_
    · rw [congrFun ht₃.cur c]
      exact hcur
    · change σ₃.status e = .free
      rw [ht₃.status, Function.update_self]

/-- The small machine with one environment to run. -/
theorem smallMachine_runnable : ∃ σ free efree, MemInv smallMachine σ free efree ∧
    σ.status 0 = .runnable ∧ ∀ cpu, σ.curenv cpu = none := by
  obtain ⟨p, free, rest, hinv⟩ := smallMachine_inv
  obtain ⟨σ, -, hinv₁, hal⟩ := hinv.envAlloc_succeeds (by decide) 0#32
  obtain ⟨-, -, -, hsame⟩ := pageInit_spec smallMemory_booted
  refine ⟨σ, free, rest, hinv₁, ?_, ?_⟩
  · rw [State.status, hal.envs, Function.update_self]
    rfl
  · intro cpu
    rw [hal.curenv, State.curenv, bootState, (envInit_inited _).cpus, hsame.cpus]
    rfl

/-- Marking an environment that another processor runs is safe. -/
theorem curenv_live_marked : ∃ σ₀ σ,
    Run (SmpStep smallMachine) σ₀ [.run 0 0, .destroy 1 0] σ ∧
    Run.Always (SmpStep smallMachine) σ₀ [.run 0 0, .destroy 1 0] CurenvLive := by
  obtain ⟨σ, free, efree, hinv, hr, hidle⟩ := smallMachine_runnable
  obtain ⟨σ₁, σ₂, -, h₁, h₂, hq, -⟩ := destroy_twice (c := 0) hinv hr (hidle 1) (by decide)
  have hrun := Run.cons h₁ (Run.cons h₂ .nil)
  refine ⟨σ, σ₂, hrun, (curenv_live_iff_handshake hidle hrun).mpr ?_⟩
  -- the only `env_destroy` is the second step
  rintro ops₁ op ops₂ τ hops hτ
  match ops₁ with
  | [] =>
    obtain ⟨rfl, -⟩ := List.cons.inj hops
    trivial
  | [a] =>
    obtain ⟨rfl, htail⟩ := List.cons.inj hops
    obtain ⟨rfl, -⟩ := List.cons.inj htail
    obtain ⟨τ₁, hτ₁, hnil⟩ := Run.cons_iff.mp hτ
    obtain rfl := Run.nil_iff.mp hnil
    obtain rfl := h₁.deterministic hτ₁
    exact hq
  | _ :: _ :: l =>
    have hlen := congrArg List.length hops
    simp at hlen

/-- Destroying it once more is not. -/
theorem curenv_freed_by_second_destroy : ∃ σ₀ σ,
    (∀ cpu, σ₀.curenv cpu = none) ∧
    Run (SmpStep smallMachine) σ₀ [.run 0 0, .destroy 1 0, .destroy 1 0] σ ∧
    ¬Run.Always (SmpStep smallMachine) σ₀ [.run 0 0, .destroy 1 0, .destroy 1 0] CurenvLive := by
  obtain ⟨σ, free, efree, hinv, hr, hidle⟩ := smallMachine_runnable
  obtain ⟨σ₁, σ₂, σ₃, h₁, h₂, -, h₃, hbad⟩ :=
    destroy_twice (c := 0) hinv hr (hidle 1) (by decide)
  have hrun := Run.cons h₁ (Run.cons h₂ (Run.cons h₃ .nil))
  exact ⟨σ, σ₃, hidle, hrun, fun hall => hbad (hall _ [] σ₃ (List.append_nil _).symm hrun)⟩

end Jos
