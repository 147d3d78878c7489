import Jos.Environment.Ids
import Jos.Lib.Ipc
import Jos.Memory.LoadSteps

/-!
# Finding an environment by its type

`ipc_find_env` looks at the types of the slots and not at whether they are in use. A slot
that is freed keeps its type and its id, so what is found may be an environment that is gone,
with others of its type behind it. `findEnv_iff` says when that does not happen.
-/

namespace Jos

variable {B : Boot} {σ σ' σ₀ : State} {cpu : ℕ} {e : Fin nenv} {type : EnvType}

/-! ### `env_create` and the table -/

/-- `load_icode` writes the entry point of its environment, and nothing else of the table. -/
theorem loadIcode_envs {V : Variables} {binary : Word}
    (h : (loadIcode V B cpu e binary σ).result = .ok σ') :
    ∃ tf, σ'.envs = Function.update σ.envs e { σ.envs e with envTf := tf } := by
  obtain ⟨entry, σ₁, -, hactions, hstack⟩ :=
    loadIcode_run (Logged.ext rfl h)
  have hsame : SameTable σ σ₁ := (lcr3_table cpu _ σ).trans (LoadAction.execAll_table hactions)
  have hlast : σ'.envs = (setEntry e entry σ₁).envs := (regionAllocLoop_frame hstack).1.envs
  refine ⟨{ (σ.envs e).envTf with tfEip := entry }, ?_⟩
  rw [hlast, ← hsame.envs]
  rfl

/-- Slots keep their ids, and whether they are in use. -/
structure SameIds (σ σ' : State) : Prop where
  id : ∀ e, (σ'.envs e).envId = (σ.envs e).envId
  status : ∀ e, (σ'.envs e).envStatus = (σ.envs e).envStatus

theorem SameIds.of_update {v : Env} (henvs : σ'.envs = Function.update σ.envs e v)
    (hid : v.envId = (σ.envs e).envId) (hstatus : v.envStatus = (σ.envs e).envStatus) :
    SameIds σ σ' := by
  refine ⟨fun e' => ?_, fun e' => ?_⟩
  all_goals
    rw [henvs]
    by_cases hee : e' = e
    · rw [hee, Function.update_self]
      assumption
    · rw [Function.update_of_ne hee]

theorem IdInv.of_sameIds {n : Fin nenv → ℕ} (h : IdInv σ n) (hs : SameIds σ σ') : IdInv σ' n := by
  refine ⟨fun e => (hs.id e).trans (h.id e), fun e hlive => h.live e ?_⟩
  rwa [Live, hs.status] at hlive

/-! ### Runs -/

/-- What is done to the table. -/
inductive FindOp where
  /-- `env_alloc(&e, parentId)`. -/
  | alloc (parentId : Word)
  /-- `env_create(binary, type)`. -/
  | create (cpu : ℕ) (V : Variables) (uninit : Option (Fin nenv)) (binary : Word) (type : EnvType)
  /-- `env_free(e)` of a live environment. -/
  | free (cpu : ℕ) (e : Fin nenv)

/-- One operation that returns. -/
def FindStep (B : Boot) (σ : State) : FindOp → State → Prop
  | .alloc parentId, σ' => ∃ r ne, envAlloc B parentId σ = .ok (r, ne, σ')
  | .create cpu V uninit binary type, σ' =>
    (envCreate V B cpu uninit binary type σ).result = .ok σ'
  | .free cpu e, σ' => Live σ e ∧ envFree B cpu e σ = .ok σ'

theorem IdInv.envAlloc {n : Fin nenv → ℕ} {parentId : Word} {r : ℤ} {ne : Option (Fin nenv)}
    (h : IdInv σ n) (hrun : Jos.envAlloc B parentId σ = .ok (r, ne, σ')) :
    ∃ n', IdInv σ' n' := by
  obtain ⟨-, rfl, -⟩ | ⟨e, rfl, rfl, -⟩ := envAlloc_table hrun
  · have hrefused : EnvStep B σ (.refused parentId r) σ' := hrun
    exact ⟨_, h.step hrefused⟩
  · have hcreated : EnvStep B σ (.created parentId e (σ'.envs e).envId) σ' := ⟨hrun, rfl⟩
    exact ⟨_, h.step hcreated⟩

/-- Every operation keeps the ids in order. -/
theorem IdInv.findStep {n : Fin nenv → ℕ} {op : FindOp} (h : IdInv σ n)
    (hs : FindStep B σ op σ') : ∃ n', IdInv σ' n' := by
  cases op with
  | alloc parentId =>
    obtain ⟨r, ne, hrun⟩ := hs
    exact h.envAlloc hrun
  | create cpu V uninit binary type =>
    obtain ⟨⟨r, stored, σ₁⟩, halloc, hrest⟩ := Logged.result_bind_eq_ok.mp hs
    obtain ⟨n', h₁⟩ := h.envAlloc halloc
    refine ⟨n', ?_⟩
    dsimp only at hrest
    split at hrest
    · cases hrest
    · -- `e` is the new slot, or whatever the variable held when `env_alloc` has failed
      next e he =>
      obtain ⟨tf, henvs⟩ := loadIcode_envs hrest
      have htype : SameIds σ₁ (σ₁.setEnv e { σ₁.envs e with envType := type }) :=
        .of_update rfl rfl rfl
      exact (h₁.of_sameIds htype).of_sameIds (.of_update henvs rfl rfl)
  | free cpu e =>
    have hfreed : EnvStep B σ (.freed cpu e) σ' := hs
    exact ⟨_, h.step hfreed⟩

/-- After every run from `env_init` on the ids are in order. -/
theorem idInv_of_run {ops : List FindOp} (hrun : Run (FindStep B) (envInit σ₀) ops σ) :
    ∃ n, IdInv σ n :=
  hrun.invariant (P := fun τ => ∃ n, IdInv τ n) (fun _ _ _ ⟨_, h⟩ hs => h.findStep hs)
    ⟨_, envInit_idInv σ₀⟩

/-! ### What is found -/

/-- Slot `e` is the first one of its type. -/
def FirstOf (σ : State) (type : EnvType) (e : Fin nenv) : Prop :=
  (σ.envs e).envType = type ∧ ∀ e' < e, (σ.envs e').envType ≠ type

/-- `ipc_find_env` returns the id of the first slot of the type, or 0 if there is none. -/
theorem ipcFindEnv_cases (σ : State) (type : EnvType) :
    (∃ e, FirstOf σ type e ∧ ipcFindEnv σ.envs type = (σ.envs e).envId) ∨
      ((∀ e, (σ.envs e).envType ≠ type) ∧ ipcFindEnv σ.envs type = 0#32) := by
  unfold ipcFindEnv
  cases hfind : (List.finRange nenv).find? fun i => (σ.envs i).envType = type with
  | none =>
    refine .inr ⟨fun e => ?_, rfl⟩
    simpa using List.find?_eq_none.mp hfind e (List.mem_finRange e)
  | some e =>
    obtain ⟨he, before, after, hlist, hbefore⟩ := List.find?_eq_some_iff_append.mp hfind
    refine .inl ⟨e, ⟨of_decide_eq_true he, fun e' hlt => ?_⟩, rfl⟩
    -- the slots are in order, so a lower one is in front of it
    have hsorted := List.pairwise_lt_finRange nenv
    have hmem := List.mem_finRange e'
    rw [hlist] at hsorted hmem
    obtain hmem | hmem := List.mem_append.mp hmem
    · simpa using hbefore e' hmem
    · obtain rfl | hmem := List.mem_cons.mp hmem
      · exact absurd hlt (lt_irrefl _)
      · have hgt := (List.pairwise_cons.mp (List.pairwise_append.mp hsorted).2.1).1 e' hmem
        exact absurd hlt hgt.asymm

/-- What `ipc_find_env(type)` is expected to return: the id of the first environment of the
type that is in use, which `envid2env` accepts, and 0 exactly when there is none. -/
structure FindsLive (σ : State) (type : EnvType) : Prop where
  found : ipcFindEnv σ.envs type ≠ 0#32 →
    ∃ e, (σ.envs e).envId = ipcFindEnv σ.envs type ∧ Live σ e ∧ (σ.envs e).envType = type ∧
      (∀ cpu, envid2env cpu (ipcFindEnv σ.envs type) false σ = (0, some e)) ∧
      ∀ e' < e, Live σ e' → (σ.envs e').envType ≠ type
  none : ipcFindEnv σ.envs type = 0#32 ↔ ∀ e, Live σ e → (σ.envs e).envType ≠ type

/-- The first slot of the type is in use; or no environment of the type is, and the first
slot of the type, if there is one, never was. -/
def FirstInUse (σ : State) (type : EnvType) : Prop :=
  (∃ e, FirstOf σ type e ∧ Live σ e) ∨
    ((∀ e, Live σ e → (σ.envs e).envType ≠ type) ∧
      ∀ e, FirstOf σ type e → (σ.envs e).envId = 0#32)

theorem FirstOf.unique {e e' : Fin nenv} (h : FirstOf σ type e) (h' : FirstOf σ type e') :
    e' = e := by
  obtain hlt | heq | hgt := lt_trichotomy e' e
  · exact absurd h'.1 (h.2 e' hlt)
  · exact heq
  · exact absurd h.1 (h'.2 e hgt)

section Ids

variable {n : Fin nenv → ℕ}

/-- The low bits of the id of a slot that has been used are its index. -/
theorem IdInv.envx_eq (h : IdInv σ n) (hid : (σ.envs e).envId ≠ 0#32) :
    envx (σ.envs e).envId = e := by
  rw [h.id e] at hid ⊢
  exact envx_envIdAt fun hc => hid (if_pos hc)

theorem IdInv.id_ne_zero (h : IdInv σ n) (he : Live σ e) : (σ.envs e).envId ≠ 0#32 := by
  rw [h.id e]
  exact envIdAt_ne_zero (h.live e he)

/-- The id of an environment that is in use is accepted. -/
theorem IdInv.envid2env_live (h : IdInv σ n) (he : Live σ e) (cpu : ℕ) :
    envid2env cpu (σ.envs e).envId false σ = (0, some e) := by
  have hid := h.id_ne_zero he
  have hgood : ¬((σ.envs e).envStatus = .free ∨ (σ.envs e).envId ≠ (σ.envs e).envId) :=
    not_or.mpr ⟨he, not_not.mpr rfl⟩
  simp only [envid2env, if_neg hid, h.envx_eq hid, if_neg hgood, Bool.false_eq_true, false_and,
    if_false]

/-- When the ids are in order, what is found is in use exactly when the first slot of the type
is. -/
theorem IdInv.findsLive_iff (h : IdInv σ n) : FindsLive σ type ↔ FirstInUse σ type := by
  obtain ⟨e, hfirst, hfind⟩ | ⟨hnone, hfind⟩ := ipcFindEnv_cases σ type
  · constructor
    · intro hlive
      by_cases hid : (σ.envs e).envId = 0#32
      · -- a slot that was never used: nothing is found
        refine .inr ⟨hlive.none.mp (hfind.trans hid), fun e' he' => ?_⟩
        rw [hfirst.unique he', hid]
      · -- the id that is returned belongs to this slot only
        obtain ⟨e', hid', he', -⟩ := hlive.found (hfind ▸ hid)
        rw [hfind] at hid'
        have hslot : e' = e := by
          rw [← h.envx_eq hid, ← hid', h.envx_eq (hid' ▸ hid)]
        exact .inl ⟨e, hfirst, hslot ▸ he'⟩
    · rintro (⟨e', he', hlive⟩ | ⟨hdead, hid⟩)
      · obtain rfl := hfirst.unique he'
        refine ⟨fun _ => ⟨e', hfind.symm, hlive, hfirst.1, fun cpu => ?_, fun e'' hlt _ => ?_⟩, ?_⟩
        · rw [hfind]
          exact h.envid2env_live hlive cpu
        · exact hfirst.2 e'' hlt
        · rw [hfind]
          exact iff_of_false (h.id_ne_zero hlive) fun hdead => hdead e' hlive hfirst.1
      · have hzero : ipcFindEnv σ.envs type = 0#32 := hfind.trans (hid e hfirst)
        exact ⟨fun hne => absurd hzero hne, iff_of_true hzero hdead⟩
  · have hdead : ∀ e, Live σ e → (σ.envs e).envType ≠ type := fun e _ => hnone e
    refine iff_of_true ⟨fun hne => absurd hfind hne, iff_of_true hfind hdead⟩ ?_
    exact .inr ⟨hdead, fun e he => absurd he.1 (hnone e)⟩

end Ids

/-- In every table that `env_init`, `env_alloc`, `env_create` and `env_free` lead to and for
every type, `ipc_find_env` finds the first environment of the type that is in use exactly when
the first slot of the type is in use, or nothing of the type is and that slot never was. -/
theorem findEnv_iff {ops : List FindOp} (hrun : Run (FindStep B) (envInit σ₀) ops σ)
    (type : EnvType) : FindsLive σ type ↔ FirstInUse σ type := by
  obtain ⟨n, h⟩ := idInv_of_run hrun
  exact h.findsLive_iff

/-- The small machine makes an environment, and it is found. -/
theorem findEnv_iff_small : ∃ σ,
    Run (FindStep smallMachine) (envInit (pageInit smallMachine smallMemory)) [.alloc 0#32] σ ∧
    FirstInUse σ .user ∧ FindsLive σ .user := by
  obtain ⟨p, free, rest, hinv⟩ := smallMachine_inv
  obtain ⟨σ, halloc, -, hal⟩ := hinv.envAlloc_succeeds (by decide) 0#32
  have hrun : Run (FindStep smallMachine) (envInit (pageInit smallMachine smallMemory))
      [.alloc 0#32] σ := .cons ⟨_, _, halloc⟩ .nil
  have htype : (σ.envs 0).envType = .user := by
    rw [hal.envs, Function.update_self]
  have hfirst : FirstInUse σ .user :=
    .inl ⟨0, ⟨htype, fun e he => absurd he (Nat.not_lt_zero e.val)⟩, hal.live⟩
  exact ⟨σ, hrun, hfirst, (findEnv_iff hrun .user).mpr hfirst⟩

/-- The environment is freed, and it is still found. -/
theorem findEnv_stale : ∃ σ,
    Run (FindStep smallMachine) (envInit (pageInit smallMachine smallMemory))
      [.alloc 0#32, .free 0 0] σ ∧ ¬FindsLive σ .user := by
  obtain ⟨p, free, rest, hinv⟩ := smallMachine_inv
  obtain ⟨σ₁, halloc, hinv₁, hal⟩ := hinv.envAlloc_succeeds (by decide) 0#32
  have hlive : Live σ₁ 0 := hal.live
  have hrun₁ : Run (FindStep smallMachine) (envInit (pageInit smallMachine smallMemory))
      [.alloc 0#32] σ₁ := .cons ⟨_, _, halloc⟩ .nil
  obtain ⟨σ₂, -, hfree, -, -⟩ := hinv₁.envFree 0 hlive
  have hrun : Run (FindStep smallMachine) (envInit (pageInit smallMachine smallMemory))
      [.alloc 0#32, .free 0 0] σ₂ := .cons ⟨_, _, halloc⟩ (.cons ⟨hlive, hfree⟩ .nil)
  have hslot : σ₂.envs 0 =
      { σ₁.envs 0 with envPgdir := 0#32, envStatus := .free, envLink := σ₁.envFreeList } := by
    rw [(envFree_table hfree).1, Function.update_self]
  have htype : (σ₂.envs 0).envType = .user := by
    rw [hslot, hal.envs, Function.update_self]
  have hfirst : FirstOf σ₂ .user 0 := ⟨htype, fun e he => absurd he (Nat.not_lt_zero e.val)⟩
  refine ⟨σ₂, hrun, fun hfinds => ?_⟩
  obtain ⟨n, h₂⟩ := idInv_of_run hrun
  obtain ⟨e, he, hlive₂⟩ | ⟨-, hid⟩ := h₂.findsLive_iff.mp hfinds
  · -- the only slot it can be is free
    rw [Live, hfirst.unique he, hslot] at hlive₂
    exact hlive₂ rfl
  · -- it has been used
    obtain ⟨n₁, h₁⟩ := idInv_of_run hrun₁
    refine h₁.id_ne_zero hlive ?_
    rw [← hid 0 hfirst, hslot]

end Jos
