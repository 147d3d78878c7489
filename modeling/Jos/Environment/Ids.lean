import Jos.Memory.MemRun

/-!
# Environment ids

`env_alloc` builds an id from a generation, kept in bits 12 to 30, and the index of
the slot in the low ten bits. The generation counts the allocations of the slot
and restarts at 1 instead of reaching the sign bit, so the `k`-th allocation of a
slot has generation `(k - 1) mod 524287 + 1`: `nextEnvId_envIdAt`.

A run of `env_alloc` and `env_free` is recorded as the list of its events. The
invariant `IdInv` says that each slot holds the id of its last allocation, and it
follows that the ids of a slot over a run are `envIdAt e 1, envIdAt e 2, ...`
(`IdInv.run`). Everything about reuse is then arithmetic of `envIdAt`.
-/

namespace Jos

variable {B : Boot} {σ σ' σ₀ : State}

/-! ### The id of the `k`-th allocation -/

/-- The generation of the `k`-th allocation of a slot. -/
def generationAt (k : ℕ) : ℕ := (k - 1) % 524287 + 1

/-- The id of the `k`-th allocation of slot `e`; a slot that was never allocated has
the id 0. -/
def envIdAt (e : Fin nenv) (k : ℕ) : Word :=
  if k = 0 then 0#32 else BitVec.ofNat 32 (4096 * generationAt k + e.val)

theorem generationAt_le (k : ℕ) : generationAt k ≤ 524287 := by
  unfold generationAt
  omega

theorem envIdAt_toNat {e : Fin nenv} {k : ℕ} (hk : k ≠ 0) :
    (envIdAt e k).toNat = 4096 * generationAt k + e.val := by
  have hg := generationAt_le k
  have he : e.val < 1024 := e.isLt
  rw [envIdAt, if_neg hk, BitVec.toNat_ofNat]
  exact Nat.mod_eq_of_lt (by omega)

theorem and_not_1023_toNat (w : Word) : (w &&& ~~~1023#32).toNat = w.toNat / 1024 * 1024 :=
  toNat_and_not_mask w (k := 10) (by decide)

/-- `env_alloc`'s next id in terms of numbers. -/
theorem nextEnvId_toNat (old : Word) (e : Fin nenv) :
    (nextEnvId old e).toNat =
      (if (old.toNat + 4096) % 2 ^ 32 / 1024 * 1024 = 0 ∨
          2 ^ 31 ≤ (old.toNat + 4096) % 2 ^ 32 / 1024 * 1024 then 4096
        else (old.toNat + 4096) % 2 ^ 32 / 1024 * 1024) + e.val := by
  have he : e.val < 1024 := e.isLt
  set g := (old + (1#32 <<< envgenshift)) &&& ~~~(BitVec.ofNat 32 (nenv - 1)) with hg
  have hgn : g.toNat = (old.toNat + 4096) % 2 ^ 32 / 1024 * 1024 := by
    rw [hg, show BitVec.ofNat 32 (nenv - 1) = 1023#32 from rfl, and_not_1023_toNat,
      BitVec.toNat_add, show (1#32 <<< envgenshift).toNat = 4096 by decide]
  -- `generation <= 0` is a comparison of ints: it holds from `2 ^ 31` on as well
  have hsle : g.sle 0#32 = true ↔ g.toNat = 0 ∨ 2 ^ 31 ≤ g.toNat := by
    have hlt := g.isLt
    rw [BitVec.sle_eq_decide, decide_eq_true_iff, BitVec.toInt_eq_toNat_cond,
      show (0#32).toInt = 0 from rfl]
    split <;> omega
  -- the low ten bits are clear, so setting the slot there is an addition
  have hor : ∀ w : Word, w.toNat % 1024 = 0 →
      (w ||| BitVec.ofNat 32 e.val).toNat = w.toNat + e.val := by
    intro w hw
    have hmod : e.val % 2 ^ 32 = e.val := Nat.mod_eq_of_lt (by omega)
    obtain ⟨q, hq⟩ : ∃ q, w.toNat = 2 ^ 10 * q := ⟨w.toNat / 1024, by omega⟩
    rw [BitVec.toNat_or, BitVec.toNat_ofNat, hmod, hq, ← Nat.two_pow_add_eq_or_of_lt (by omega)]
  rw [← hgn]
  simp only [nextEnvId, ← hg]
  by_cases hneg : g.sle 0#32 = true
  · rw [if_pos hneg, if_pos (hsle.mp hneg), hor _ (by decide),
      show (1#32 <<< envgenshift).toNat = 4096 by decide]
  · rw [if_neg hneg, if_neg (fun hc => hneg (hsle.mpr hc)), hor _ (by rw [hgn]; omega)]

/-- The next id of a slot is that of its next allocation. -/
theorem nextEnvId_envIdAt (e : Fin nenv) (k : ℕ) :
    nextEnvId (envIdAt e k) e = envIdAt e (k + 1) := by
  have he : e.val < 1024 := e.isLt
  apply BitVec.eq_of_toNat_eq
  rw [nextEnvId_toNat, envIdAt_toNat (Nat.succ_ne_zero k)]
  by_cases hk : k = 0
  · subst hk
    rw [envIdAt, if_pos rfl, BitVec.toNat_ofNat]
    simp [generationAt]
  · rw [envIdAt_toNat hk]
    have hstep : generationAt (k + 1) =
        if generationAt k = 524287 then 1 else generationAt k + 1 := by
      unfold generationAt
      split <;> omega
    have hpos : 1 ≤ generationAt k := by
      unfold generationAt
      omega
    have hle := generationAt_le k
    rw [hstep]
    -- the generation after the last one is the sign bit, which restarts it
    by_cases hwrap : generationAt k = 524287
    · rw [if_pos hwrap, if_pos (by omega)]
    · rw [if_neg hwrap, if_neg (by omega)]
      omega

theorem envIdAt_pos {e : Fin nenv} {k : ℕ} (hk : k ≠ 0) : 0 < (envIdAt e k).toInt := by
  have hnat := envIdAt_toNat (e := e) hk
  have hle := generationAt_le k
  have hpos : 1 ≤ generationAt k := by
    unfold generationAt
    omega
  have he : e.val < 1024 := e.isLt
  rw [BitVec.toInt_eq_toNat_cond]
  split <;> omega

theorem envIdAt_ne_zero {e : Fin nenv} {k : ℕ} (hk : k ≠ 0) : envIdAt e k ≠ 0#32 := by
  intro hc
  have hpos := envIdAt_pos (e := e) hk
  rw [hc] at hpos
  exact absurd hpos (by decide)

theorem envx_envIdAt {e : Fin nenv} {k : ℕ} (hk : k ≠ 0) : envx (envIdAt e k) = e := by
  have he : e.val < 1024 := e.isLt
  ext
  simp only [envx, BitVec.toNat_and]
  rw [show BitVec.toNat 0x3FF#32 = 2 ^ 10 - 1 from rfl, Nat.and_two_pow_sub_one_eq_mod,
    envIdAt_toNat hk]
  omega

/-- Two allocations have the same id when they are of one slot and a multiple of
524287 apart. -/
theorem envIdAt_inj_iff {e e' : Fin nenv} {k k' : ℕ} (hk : k ≠ 0) (hk' : k' ≠ 0) :
    envIdAt e k = envIdAt e' k' ↔ e = e' ∧ k % 524287 = k' % 524287 := by
  have he : e.val < 1024 := e.isLt
  have he' : e'.val < 1024 := e'.isLt
  rw [← BitVec.toNat_inj, envIdAt_toNat hk, envIdAt_toNat hk', Fin.ext_iff]
  unfold generationAt
  omega

/-! ### Runs -/

/-- What happens to the environment table. -/
inductive EnvEvent where
  /-- `env_alloc(&e, parentId)` gave slot `e` the id `id`. -/
  | created (parentId : Word) (e : Fin nenv) (id : Word)
  /-- `env_alloc` failed with the code `r`. -/
  | refused (parentId : Word) (r : ℤ)
  /-- `env_free(e)` of a live environment, on processor `cpu`. -/
  | freed (cpu : ℕ) (e : Fin nenv)

/-- One event. -/
def EnvStep (B : Boot) (σ : State) : EnvEvent → State → Prop
  | .created parentId e id, σ' =>
    envAlloc B parentId σ = .ok (0, some e, σ') ∧ (σ'.envs e).envId = id
  | .refused parentId r, σ' => envAlloc B parentId σ = .ok (r, none, σ')
  | .freed cpu e, σ' => Live σ e ∧ envFree B cpu e σ = .ok σ'

/-- The ids slot `e` was given, in order. -/
def idsOf (e : Fin nenv) (evs : List EnvEvent) : List Word :=
  evs.filterMap fun
    | .created _ e' id => if e' = e then some id else none
    | _ => none

@[simp] theorem idsOf_append (e : Fin nenv) (evs evs' : List EnvEvent) :
    idsOf e (evs ++ evs') = idsOf e evs ++ idsOf e evs' :=
  List.filterMap_append

theorem idsOf_created (e e' : Fin nenv) (parentId id : Word) (evs : List EnvEvent) :
    idsOf e (.created parentId e' id :: evs) =
      if e' = e then id :: idsOf e evs else idsOf e evs := by
  by_cases h : e' = e <;> simp [idsOf, h]

@[simp] theorem idsOf_freed (e e' : Fin nenv) (cpu : ℕ) (evs : List EnvEvent) :
    idsOf e (.freed cpu e' :: evs) = idsOf e evs := rfl

/-- After `n e` allocations of every slot `e`. -/
structure IdInv (σ : State) (n : Fin nenv → ℕ) : Prop where
  id : ∀ e, (σ.envs e).envId = envIdAt e (n e)
  live : ∀ e, Live σ e → n e ≠ 0

/-- The number of allocations after an event. -/
def countEvent (n : Fin nenv → ℕ) : EnvEvent → Fin nenv → ℕ
  | .created _ e _ => Function.update n e (n e + 1)
  | _ => n

theorem SameTable.live_iff (h : SameTable σ σ') (e : Fin nenv) : Live σ' e ↔ Live σ e := by
  rw [Live, Live, h.envs]

theorem EnvCreated.envId {parentId : Word} {e : Fin nenv} (h : EnvCreated parentId e σ σ') :
    (σ'.envs e).envId = nextEnvId (σ.envs e).envId e := by
  obtain ⟨pgdir, henvs⟩ := h.envs
  rw [henvs, Function.update_self]
  rfl

theorem EnvCreated.of_ne {parentId : Word} {e e' : Fin nenv} (h : EnvCreated parentId e σ σ')
    (hne : e' ≠ e) : σ'.envs e' = σ.envs e' := by
  obtain ⟨pgdir, henvs⟩ := h.envs
  rw [henvs, Function.update_of_ne hne]

theorem envAlloc_zero_table {parentId : Word} {e : Fin nenv}
    (h : envAlloc B parentId σ = .ok (0, some e, σ')) : EnvCreated parentId e σ σ' := by
  obtain ⟨hr, -⟩ | ⟨e', -, he, hcr⟩ := envAlloc_table h
  · exact absurd hr (by decide)
  · obtain rfl := Option.some.inj he
    exact hcr

theorem envAlloc_none_table {parentId : Word} {r : ℤ}
    (h : envAlloc B parentId σ = .ok (r, none, σ')) : SameTable σ σ' := by
  obtain ⟨-, -, hsame⟩ | ⟨e, -, he, -⟩ := envAlloc_table h
  · exact hsame
  · cases he

/-- Every event keeps the invariant. -/
theorem IdInv.step {n : Fin nenv → ℕ} {ev : EnvEvent} (h : IdInv σ n) (hs : EnvStep B σ ev σ') :
    IdInv σ' (countEvent n ev) := by
  cases ev with
  | created parentId e id =>
    have hcr := envAlloc_zero_table hs.1
    constructor
    · intro e'
      by_cases hee : e' = e
      · subst hee
        simp only [countEvent, Function.update_self]
        rw [hcr.envId, h.id, nextEnvId_envIdAt]
      · simp only [countEvent, Function.update_of_ne hee]
        rw [hcr.of_ne hee, h.id]
    · intro e' hlive
      by_cases hee : e' = e
      · subst hee
        simp only [countEvent, Function.update_self]
        omega
      · simp only [countEvent, Function.update_of_ne hee]
        apply h.live e'
        rwa [Live, hcr.of_ne hee] at hlive
  | refused parentId r =>
    have hsame := envAlloc_none_table hs
    refine ⟨?_, fun e' hlive => h.live e' ((hsame.live_iff e').mp hlive)⟩
    intro e'
    rw [hsame.envs]
    exact h.id e'
  | freed cpu e =>
    obtain ⟨henvs, -, -⟩ := envFree_table hs.2
    constructor
    · intro e'
      rw [henvs]
      by_cases hee : e' = e
      · subst hee
        rw [Function.update_self]
        exact h.id e'
      · rw [Function.update_of_ne hee]
        exact h.id e'
    · intro e' hlive
      by_cases hee : e' = e
      · -- a slot keeps its id and its count when it is freed
        subst hee
        exact h.live e' hs.1
      · apply h.live e'
        rwa [Live, henvs, Function.update_of_ne hee] at hlive

theorem countEvent_add (n : Fin nenv → ℕ) (ev : EnvEvent) (evs : List EnvEvent) (e : Fin nenv) :
    countEvent n ev e + (idsOf e evs).length = n e + (idsOf e (ev :: evs)).length := by
  cases ev with
  | created parentId e' id =>
    rw [idsOf_created]
    by_cases hee : e' = e
    · subst hee
      rw [if_pos rfl, List.length_cons]
      simp only [countEvent, Function.update_self]
      omega
    · rw [if_neg hee]
      simp only [countEvent, Function.update_of_ne (Ne.symm hee)]
  | refused parentId r => rfl
  | freed cpu e' => rfl

/-- Over a run, slot `e` is given the ids of its next allocations, one after the
other. -/
theorem IdInv.run {n : Fin nenv → ℕ} {evs : List EnvEvent} (h : IdInv σ n)
    (hrun : Run (EnvStep B) σ evs σ') :
    IdInv σ' (fun e => n e + (idsOf e evs).length) ∧
      ∀ e k id, (idsOf e evs)[k]? = some id → id = envIdAt e (n e + k + 1) := by
  induction hrun generalizing n with
  | nil => exact ⟨h, fun e k id hk => by cases hk⟩
  | @cons σ σ₁ σ' ev evs hs _ ih =>
    have h₁ := h.step hs
    obtain ⟨hinv, hids⟩ := ih h₁
    constructor
    · have hcount : (fun e => countEvent n ev e + (idsOf e evs).length) =
          fun e => n e + (idsOf e (ev :: evs)).length := funext (countEvent_add n ev evs)
      rwa [hcount] at hinv
    · intro e k id hk
      cases ev with
      | created parentId e' id' =>
        rw [idsOf_created] at hk
        by_cases hee : e' = e
        · subst hee
          rw [if_pos rfl] at hk
          -- the first id of the list is the one of this event
          cases k with
          | zero =>
            have hid := h₁.id e'
            simp only [countEvent, Function.update_self] at hid
            rw [← Option.some.inj hk, ← hs.2, hid]
          | succ k =>
            have hid := hids e' k id hk
            simp only [countEvent, Function.update_self] at hid
            rw [hid]
            congr 1
            omega
        · rw [if_neg hee] at hk
          have hid := hids e k id hk
          simpa only [countEvent, Function.update_of_ne (Ne.symm hee)] using hid
      | refused parentId r => exact hids e k id hk
      | freed cpu e' => exact hids e k id hk

/-- A slot that is not allocated again stays free. -/
theorem not_live_run {evs : List EnvEvent} {e : Fin nenv} (hrun : Run (EnvStep B) σ evs σ')
    (hnone : idsOf e evs = []) (hfree : ¬Live σ e) : ¬Live σ' e := by
  -- only an allocation of the slot could bring it back, and that would be in `idsOf`
  induction hrun with
  | nil => exact hfree
  | @cons σ σ₁ σ' ev evs hs _ ih =>
    cases ev with
    | created parentId e' id =>
      rw [idsOf_created] at hnone
      by_cases hee : e' = e
      · rw [if_pos hee] at hnone
        cases hnone
      · rw [if_neg hee] at hnone
        apply ih hnone
        rwa [Live, (envAlloc_zero_table hs.1).of_ne (Ne.symm hee)]
    | refused parentId r =>
      exact ih hnone fun hc => hfree (((envAlloc_none_table hs).live_iff e).mp hc)
    | freed cpu e' =>
      apply ih hnone
      rw [Live, (envFree_table hs.2).1]
      by_cases hee : e = e'
      · rw [hee, Function.update_self]
        simp
      · rwa [Function.update_of_ne hee]

/-! ### Histories -/

/-- What ids promise over the history `evs` that led to `σ`. -/
structure IdHistory (evs : List EnvEvent) (σ : State) : Prop where
  wellFormed : ∀ parentId e id, .created parentId e id ∈ evs → 0 < id.toInt ∧ envx id = e
  distinct : ∀ e e', Live σ e → Live σ e' → e ≠ e' → (σ.envs e).envId ≠ (σ.envs e').envId
  /-- Two allocations of one slot that are `k` allocations of that slot apart. -/
  apart : ∀ e i k id id', (idsOf e evs)[i]? = some id → (idsOf e evs)[i + k]? = some id' →
    (0 < k → k < 524287 → id ≠ id') ∧ (k = 524287 → id = id')
  /-- The id of a freed environment, before its slot is reallocated 524287 times. -/
  stale : ∀ parentId e id c evs₁ evs₂ evs₃,
    evs = evs₁ ++ .created parentId e id :: (evs₂ ++ .freed c e :: evs₃) →
    (idsOf e (evs₂ ++ evs₃)).length < 524287 →
    ∀ cpu checkperm, envid2env cpu id checkperm σ = (-eBadEnv, none)

theorem mem_idsOf {parentId id : Word} {e : Fin nenv} {evs : List EnvEvent}
    (h : .created parentId e id ∈ evs) : id ∈ idsOf e evs := by
  unfold idsOf
  rw [List.mem_filterMap]
  exact ⟨_, h, if_pos rfl⟩

theorem envInit_idInv (σ₀ : State) : IdInv (envInit σ₀) fun _ => 0 := by
  have hin := envInit_inited σ₀
  exact ⟨fun e => by rw [hin.id e]; rfl, fun e hlive => absurd (hin.status e) hlive⟩

/-- A lookup of an id that its slot no longer has, or whose slot is free. -/
theorem envid2env_bad {id : Word} (hid : id ≠ 0#32)
    (h : ¬Live σ (envx id) ∨ (σ.envs (envx id)).envId ≠ id) (cpu : ℕ) (checkperm : Bool) :
    envid2env cpu id checkperm σ = (-eBadEnv, none) := by
  have hbad : (σ.envs (envx id)).envStatus = .free ∨ (σ.envs (envx id)).envId ≠ id :=
    h.imp_left fun hn => not_not.mp hn
  simp only [envid2env, if_neg hid, if_pos hbad]

/-- The ids of the environments over every history that starts with `env_init`. -/
theorem envIds_history {evs : List EnvEvent} (hrun : Run (EnvStep B) (envInit σ₀) evs σ) :
    IdHistory evs σ := by
  obtain ⟨hinv, hids⟩ := (envInit_idInv σ₀).run hrun
  simp only [zero_add] at hinv hids
  refine ⟨?_, ?_,
    ?_, ?_⟩
  · intro parentId e id hmem
    obtain ⟨k, hk⟩ := List.mem_iff_getElem?.mp (mem_idsOf hmem)
    rw [hids e k id hk]
    exact ⟨envIdAt_pos (Nat.succ_ne_zero k), envx_envIdAt (Nat.succ_ne_zero k)⟩
  · -- the low bits of an id are its slot
    intro e e' he he' hne hc
    rw [hinv.id e, hinv.id e'] at hc
    exact hne ((envIdAt_inj_iff (hinv.live e he) (hinv.live e' he')).mp hc).1
  · intro e i k id id' hi hik
    rw [hids e i id hi, hids e (i + k) id' hik, Ne,
      envIdAt_inj_iff (Nat.succ_ne_zero i) (Nat.succ_ne_zero (i + k))]
    simp only [true_and]
    omega
  · rintro parentId e id c evs₁ evs₂ evs₃ rfl hfew cpu checkperm
    -- the id is that of allocation `m + 1` of the slot
    set m := (idsOf e evs₁).length with hm
    have hid : id = envIdAt e (m + 1) := by
      apply hids e m id
      rw [idsOf_append, idsOf_created, if_pos rfl, List.getElem?_append_right (by omega), hm,
        Nat.sub_self, List.getElem?_cons_zero]
    have hx : envx id = e := by rw [hid, envx_envIdAt (Nat.succ_ne_zero m)]
    have hpos : id ≠ 0#32 := by
      rw [hid]
      exact envIdAt_ne_zero (Nat.succ_ne_zero m)
    refine envid2env_bad hpos ?_ cpu checkperm
    rw [hx]
    by_cases hnone : idsOf e evs₃ = []
    · -- nobody has used the slot since it was freed
      left
      obtain ⟨σ₁, -, hrun₁⟩ := Run.append_iff.mp hrun
      obtain ⟨σ₂, -, hrun₂⟩ := Run.cons_iff.mp hrun₁
      obtain ⟨σ₃, -, hrun₃⟩ := Run.append_iff.mp hrun₂
      obtain ⟨σ₄, hfreed, hrun₄⟩ := Run.cons_iff.mp hrun₃
      apply not_live_run hrun₄ hnone
      rw [Live, (envFree_table hfreed.2).1, Function.update_self]
      simp
    · -- the slot has a later occupant, fewer than 524287 allocations on
      right
      have hlen : 0 < (idsOf e evs₃).length := List.length_pos_iff.mpr hnone
      rw [idsOf_append, List.length_append] at hfew
      have hcount :
          (idsOf e (evs₁ ++ .created parentId e id :: (evs₂ ++ .freed c e :: evs₃))).length =
            m + 1 + ((idsOf e evs₂).length + (idsOf e evs₃).length) := by
        rw [idsOf_append, idsOf_created, if_pos rfl, idsOf_append, idsOf_freed, List.length_append,
          List.length_cons, List.length_append]
        omega
      rw [hinv.id e, hcount, hid, Ne, envIdAt_inj_iff (by omega) (Nat.succ_ne_zero m)]
      simp only [true_and]
      omega

theorem envIds_history_smallMachine : ∃ σ,
    Run (EnvStep smallMachine) (envInit (pageInit smallMachine smallMemory))
      [.created 0#32 0 0x1000#32, .freed 0 0] σ ∧
    IdHistory [.created 0#32 0 0x1000#32, .freed 0 0] σ := by
  obtain ⟨p, free, rest, hinv⟩ := smallMachine_inv
  obtain ⟨σ₁, halloc, hinv₁, hal⟩ := hinv.envAlloc_succeeds (by decide) 0#32
  have hcr := envAlloc_zero_table halloc
  have hid : (σ₁.envs 0).envId = 0x1000#32 := by
    rw [hcr.envId, bootState, (envInit_inited _).id]
    decide
  have hlive : Live σ₁ 0 := hal.live
  obtain ⟨σ₂, -, hfree, -, -⟩ := hinv₁.envFree 0 hlive
  have hrun : Run (EnvStep smallMachine) (envInit (pageInit smallMachine smallMemory))
      [.created 0#32 0 0x1000#32, .freed 0 0] σ₂ :=
    .cons ⟨halloc, hid⟩ (.cons ⟨hlive, hfree⟩ .nil)
  exact ⟨σ₂, hrun, envIds_history hrun⟩

end Jos
