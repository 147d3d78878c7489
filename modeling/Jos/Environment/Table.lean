import Jos.Environment.Smp
import Jos.Memory.Isolation

/-!
# The environment table

After every run of `env_alloc`, `env_run`, `env_destroy` and `env_free` from `env_init`
on, `env_free_list` has exactly the free slots, and every other slot has a page directory
of its own: `TableInv`, kept by every step (`TableInv.step`). `env_alloc` takes the head
of the list when it starts and unlinks it when it ends, and there is one fallible step
between the two, which comes before the first write. So it fails for the two reasons it
reports, and then nothing has changed (`envTable_sound`).
-/

namespace Jos

variable {B : Boot} {σ σ' σ₀ : State} {cpu : ℕ} {free : List ℕ} {efree : List (Fin nenv)}
  {e : Fin nenv}

/-! ### The steps -/

/-- What is done to the table, and the operations on memory in between. -/
inductive TableOp where
  | alloc (parentId : Word)
  | run (e : Fin nenv)
  | destroy (e : Fin nenv)
  | free (e : Fin nenv)
  | mem (op : MemOp)

/-- One operation on processor `cpu` that returns. An environment that is run, destroyed
or freed is in use. -/
def TableStep (B : Boot) (cpu : ℕ) (σ : State) : TableOp → State → Prop
  | .alloc parentId, σ' => ∃ r ne, envAlloc B parentId σ = .ok (r, ne, σ')
  | .run e, σ' => Live σ e ∧ envRun cpu e σ = .ok σ'
  | .destroy e, σ' => Live σ e ∧ envDestroy B cpu e σ = .ok σ'
  | .free e, σ' => Live σ e ∧ envFree B cpu e σ = .ok σ'
  | .mem op, σ' => UserStep B σ op σ'

/-- The invariant: a free slot has no page directory, beside what holds of the slots in
use and of the free list. -/
structure TableInv (B : Boot) (σ : State) (free : List ℕ) (efree : List (Fin nenv)) : Prop
    extends MemInv B σ free efree where
  clean : ∀ e, (σ.envs e).envStatus = .free → (σ.envs e).envPgdir = 0#32

namespace TableInv

theorem of_sameSpaces (h : TableInv B σ free efree) (hs : SameSpaces σ σ') :
    TableInv B σ' free efree where
  toMemInv := hs.memInv h.toMemInv
  clean e he := by
    rw [hs.pgdir]
    exact h.clean e ((hs.free_iff e).mp he)

/-- One slot is written, and it is in use or has no page directory. -/
theorem clean_update (h : TableInv B σ free efree) {v : Env}
    (henvs : σ'.envs = Function.update σ.envs e v) (hv : v.envStatus = .free → v.envPgdir = 0#32)
    (e' : Fin nenv) (he' : (σ'.envs e').envStatus = .free) : (σ'.envs e').envPgdir = 0#32 := by
  rw [henvs] at he' ⊢
  by_cases hee : e' = e
  · rw [hee, Function.update_self] at he' ⊢
    exact hv he'
  · rw [Function.update_of_ne hee] at he' ⊢
    exact h.clean e' he'

theorem envAlloc (h : TableInv B σ free efree) {parentId : Word} {r : ℤ} {ne : Option (Fin nenv)}
    (hrun : Jos.envAlloc B parentId σ = .ok (r, ne, σ')) :
    ∃ free' efree', TableInv B σ' free' efree' := by
  obtain ⟨-, -, -, rfl⟩ | ⟨-, -, -, rfl⟩ |
    ⟨e, rest, p, free', rfl, rfl, -, -, hinv, henv, hlow, hal⟩ :=
    envAlloc_ok h.page h.env h.low hrun
  · exact ⟨free, efree, h⟩
  · exact ⟨free, efree, h⟩
  · refine ⟨free', rest, h.of_envAllocated hinv henv hlow hal, ?_⟩
    exact h.clean_update hal.envs fun hc => by cases hc

theorem envFree (h : TableInv B σ free efree) (he : Live σ e)
    (hrun : Jos.envFree B cpu e σ = .ok σ') : ∃ free', TableInv B σ' free' (e :: efree) := by
  obtain ⟨σ₁, free', hrun₁, hf, hinv⟩ := h.toMemInv.envFree cpu he
  obtain rfl := ok_unique hrun₁ hrun
  exact ⟨free', hinv (hf.bound h.toGlobalInv), h.clean_update hf.envs fun _ => rfl⟩

theorem schedYield_same (hrun : schedYield B cpu σ = .ok σ') : SameSpaces σ σ' := by
  unfold schedYield at hrun
  split at hrun
  · obtain ⟨pa, -, rfl⟩ := map_eq_ok.mp hrun
    exact .cpus rfl
  · obtain rfl := Except.ok.inj hrun
    exact .cpus rfl

theorem envDestroy (h : TableInv B σ free efree) (he : Live σ e)
    (hrun : Jos.envDestroy B cpu e σ = .ok σ') :
    ∃ free' efree', TableInv B σ' free' efree' := by
  unfold Jos.envDestroy at hrun
  split at hrun
  · -- it runs on another processor, and is only marked
    obtain rfl := Except.ok.inj hrun
    exact ⟨free, efree, h.of_sameSpaces (.setEnv he (by simp) rfl rfl)⟩
  · obtain ⟨σ₁, hfree, hrest⟩ := bind_eq_ok.mp hrun
    obtain ⟨free', h₁⟩ := h.envFree he hfree
    refine ⟨free', e :: efree, ?_⟩
    split at hrest
    · have hdrop : SameSpaces σ₁ (σ₁.setCurenv cpu none) := .cpus rfl
      exact h₁.of_sameSpaces (hdrop.trans (schedYield_same hrest))
    · obtain rfl := Except.ok.inj hrest
      exact h₁

theorem userStep (h : TableInv B σ free efree) {op : MemOp} (hs : UserStep B σ op σ') :
    ∃ free' efree', TableInv B σ' free' efree' := by
  obtain ⟨free', efree', h'⟩ := hs.1.inv h.toMemInv
  refine ⟨free', efree', h', ?_⟩
  -- the table is kept, or a slot is filled or emptied
  obtain hk | ⟨parentId, e, p, -, hal⟩ | ⟨e, free'', hf⟩ := hs.effect h.toMemInv
  · rw [hk.envs]
    exact h.clean
  · exact h.clean_update hal.envs fun hc => by cases hc
  · exact h.clean_update hf.envs fun _ => rfl

/-- Every step keeps the invariant. -/
theorem step (h : TableInv B σ free efree) {op : TableOp} (hs : TableStep B cpu σ op σ') :
    ∃ free' efree', TableInv B σ' free' efree' := by
  cases op with
  | alloc parentId =>
    obtain ⟨r, ne, hrun⟩ := hs
    exact h.envAlloc hrun
  | run e =>
    obtain ⟨σ₁, hrun, hsame⟩ := h.toMemInv.envRun hs.1 cpu
    obtain rfl := ok_unique hrun hs.2
    exact ⟨free, efree, h.of_sameSpaces hsame⟩
  | destroy e => exact h.envDestroy hs.1 hs.2
  | free e =>
    obtain ⟨free', h'⟩ := h.envFree hs.1 hs.2
    exact ⟨free', e :: efree, h'⟩
  | mem op => exact h.userStep hs

theorem run (h : TableInv B σ free efree) {ops : List TableOp}
    (hrun : Run (TableStep B cpu) σ ops σ') : ∃ free' efree', TableInv B σ' free' efree' :=
  hrun.invariant (P := fun τ => ∃ free' efree', TableInv B τ free' efree')
    (fun _ _ _ ⟨_, _, hi⟩ hs => hi.step hs) ⟨free, efree, h⟩

end TableInv

/-- `env_init` establishes the invariant. -/
theorem MemInited.tableInv (h₀ : Booted B σ₀) (h : MemInited B σ₀ σ) :
    ∃ free, TableInv B (envInit σ) free (List.finRange nenv) := by
  obtain ⟨t, free, hmapped⟩ := h.mapped h₀
  refine ⟨free, hmapped.inv.1, ?_⟩
  intro e _
  rw [envInit_pgdir, (h.table h₀).1, h₀.envs]
  rfl

/-! ### What the table promises -/

/-- The table as its users see it: what `env_free_list` holds, what a slot in use has,
and when and how `env_alloc` fails. -/
structure EnvTable (B : Boot) (σ : State) : Prop where
  list : ∃ l, Chain (fun e => (σ.envs e).envLink) σ.envFreeList l ∧ l.Nodup ∧
    ∀ e, e ∈ l ↔ (σ.envs e).envStatus = .free
  pgdir : ∀ e, (σ.envs e).envStatus ≠ .free → (σ.envs e).envPgdir ≠ 0#32
  unshared : ∀ e e', (σ.envs e).envStatus ≠ .free → e' ≠ e →
    (σ.envs e').envPgdir ≠ (σ.envs e).envPgdir
  noFreeEnv : ∀ parentId, (∃ ne σ', envAlloc B parentId σ = .ok (-eNoFreeEnv, ne, σ')) ↔
    ∀ e, (σ.envs e).envStatus ≠ .free
  noMem : ∀ parentId, (∃ ne σ', envAlloc B parentId σ = .ok (-eNoMem, ne, σ')) ↔
    (∃ e, (σ.envs e).envStatus = .free) ∧ σ.pageFreeList = none
  /-- A failure is one of the two, stores no environment, and changes nothing. -/
  atomic : ∀ parentId r ne σ', envAlloc B parentId σ = .ok (r, ne, σ') → r ≠ 0 →
    (r = -eNoFreeEnv ∨ r = -eNoMem) ∧ ne = none ∧ σ' = σ

namespace TableInv

theorem unshared (h : TableInv B σ free efree) {e' : Fin nenv} (he : Live σ e) (hne : e' ≠ e) :
    (σ.envs e').envPgdir ≠ (σ.envs e).envPgdir := by
  intro heq
  by_cases he' : Live σ e'
  · -- two directories in one frame
    have hd := h.env.dirFrame_live (B := B) he
    have hd' := h.env.dirFrame_live (B := B) he'
    rw [heq] at hd'
    exact hne (Option.some.inj (h.page.separated.dirFrame_inj hd hd'))
  · have hz := h.clean e' (not_not.mp he')
    have hge := h.env.pgdir e he
    rw [← heq, hz] at hge
    exact absurd hge (by decide)

theorem envAlloc_noFreeEnv (h : TableInv B σ free efree) (parentId : Word) :
    (∃ ne σ', Jos.envAlloc B parentId σ = .ok (-eNoFreeEnv, ne, σ')) ↔ efree = [] := by
  constructor
  · rintro ⟨ne, σ', hrun⟩
    obtain ⟨hnil, -⟩ | ⟨-, hr, -⟩ | ⟨e, rest, p, free', -, -, hr, -⟩ :=
      envAlloc_ok h.page h.env h.low hrun
    · exact hnil
    · exact absurd hr (by decide)
    · exact absurd hr (by decide)
  · rintro rfl
    rw [Jos.envAlloc, h.env.chain.head_none_iff.mpr rfl]
    exact ⟨none, σ, rfl⟩

theorem envAlloc_noMem (h : TableInv B σ free efree) (parentId : Word) :
    (∃ ne σ', Jos.envAlloc B parentId σ = .ok (-eNoMem, ne, σ')) ↔ efree ≠ [] ∧ free = [] := by
  constructor
  · rintro ⟨ne, σ', hrun⟩
    obtain ⟨-, hr, -⟩ | ⟨hnil, -⟩ | ⟨e, rest, p, free', -, -, hr, -⟩ :=
      envAlloc_ok h.page h.env h.low hrun
    · exact absurd hr (by decide)
    · refine ⟨?_, hnil⟩
      -- the table is looked at first
      rintro rfl
      rw [Jos.envAlloc, h.env.chain.head_none_iff.mpr rfl] at hrun
      exact absurd (Prod.mk.inj (Except.ok.inj hrun)).1 (by decide)
    · exact absurd hr (by decide)
  · rintro ⟨hne, rfl⟩
    cases efree with
    | nil => exact absurd rfl hne
    | cons e rest =>
      have hvm : envSetupVm B e σ = .ok (-eNoMem, σ) := by
        rw [envSetupVm, pageAlloc_nil h.page]
        rfl
      rw [Jos.envAlloc, h.env.chain.head_eq]
      simp only [hvm, ok_bind]
      exact ⟨_, _, rfl⟩

theorem envTable (h : TableInv B σ free efree) : EnvTable B σ where
  list := ⟨efree, h.env.chain, h.env.chain.nodup, h.env.free_iff⟩
  pgdir e he hz := by
    have hge := h.env.pgdir e he
    rw [hz] at hge
    exact absurd hge (by decide)
  unshared e e' he hne := h.unshared he hne
  noFreeEnv parentId := by
    rw [h.envAlloc_noFreeEnv, List.eq_nil_iff_forall_not_mem]
    exact forall_congr' fun e => not_congr (h.env.free_iff e)
  noMem parentId := by
    have hne : efree ≠ [] ↔ ∃ e, (σ.envs e).envStatus = .free := by
      rw [Ne, List.eq_nil_iff_forall_not_mem, not_forall_not]
      exact exists_congr h.env.free_iff
    rw [h.envAlloc_noMem, h.page.chain.head_none_iff, hne]
  atomic parentId r ne σ' hrun hr := by
    -- `env_alloc` returns before it changes anything or it returns 0
    obtain ⟨-, hr', hne, hσ⟩ | ⟨-, hr', hne, hσ⟩ | ⟨e, rest, p, free', -, -, hr', -⟩ :=
      envAlloc_ok h.page h.env h.low hrun
    · exact ⟨Or.inl hr', hne, hσ⟩
    · exact ⟨Or.inr hr', hne, hσ⟩
    · exact absurd hr' hr

end TableInv

/-- After every run from `env_init` on the table keeps its promises. -/
theorem envTable_sound (h₀ : Booted B σ₀) (hinit : MemInited B σ₀ σ) {ops : List TableOp}
    (hrun : Run (TableStep B cpu) (envInit σ) ops σ') : EnvTable B σ' := by
  obtain ⟨free₀, h⟩ := hinit.tableInv h₀
  obtain ⟨free, efree, h'⟩ := h.run hrun
  exact h'.envTable

/-- The small machine makes an environment, runs it and destroys it. -/
theorem envTable_sound_smallMachine : ∃ σ σ', MemInited smallMachine smallMemory σ ∧
    Run (TableStep smallMachine 0) (envInit σ) [.alloc 0#32, .run 0, .destroy 0] σ' ∧
    EnvTable smallMachine σ' := by
  obtain ⟨σ, σ₁, hinit, halloc, hlive⟩ := smallMachine_firstEnv
  obtain ⟨free, h⟩ := hinit.tableInv smallMemory_booted
  obtain ⟨τ, hstep, hnil⟩ := Run.cons_iff.mp halloc
  obtain rfl := Run.nil_iff.mp hnil
  obtain ⟨⟨r, ne, σ₂⟩, hrun₁, rfl⟩ := map_eq_ok.mp hstep.1.exec
  obtain ⟨free₁, efree₁, h₁⟩ := h.envAlloc hrun₁
  obtain ⟨σ₃, hrun₂, hsame⟩ := h₁.toMemInv.envRun hlive 0
  have hlive₃ : Live σ₃ 0 := hsame.live_iff.mpr hlive
  have hcur : σ₃.curenv 0 = some 0 := by rw [(envRun_turn hrun₂).cur, Function.update_self]
  -- the processor destroys what it runs
  obtain ⟨σ₄, free₄, hfree, -, -⟩ := (h₁.of_sameSpaces hsame).toMemInv.envFree 0 hlive₃
  have hcur₄ : σ₄.curenv 0 = some 0 := by rw [(envFree_turn hfree).cur, hcur]
  have hyield : ∃ σ₅, schedYield smallMachine 0 (σ₄.setCurenv 0 none) = .ok σ₅ := by
    have hpa : ∃ pa, paddr smallMachine.kernPgdir = .ok pa :=
      ⟨_, paddr_eq_ok.mpr ⟨kernbase_le_kernPgdir _, rfl⟩⟩
    obtain ⟨pa, hpa⟩ := hpa
    unfold schedYield
    rw [hpa]
    split
    · exact ⟨_, rfl⟩
    · exact ⟨_, rfl⟩
  obtain ⟨σ₅, hyield⟩ := hyield
  have hdestroy : envDestroy smallMachine 0 0 σ₃ = .ok σ₅ := by
    unfold envDestroy
    rw [if_neg fun hc => hc.2 hcur]
    refine bind_eq_ok.mpr ⟨σ₄, hfree, ?_⟩
    rw [if_pos hcur₄]
    exact hyield
  have hrun : Run (TableStep smallMachine 0) (envInit σ) [.alloc 0#32, .run 0, .destroy 0] σ₅ :=
    .cons ⟨r, ne, hrun₁⟩ (.cons ⟨hlive, hrun₂⟩ (.cons ⟨hlive₃, hdestroy⟩ .nil))
  exact ⟨σ, σ₅, hinit, hrun, envTable_sound smallMemory_booted hinit hrun⟩

end Jos
