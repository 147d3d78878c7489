import Jos.Memory.Teardown

/-!
# Environments come and go

`env_alloc` and `env_free` on the page invariant and on the environment table.

`EnvInv` is what the table satisfies: `env_free_list` is a chain through exactly
the slots whose status is `ENV_FREE`, and the page directory of every other slot
is a kernel pointer. `KernLow` says that `kern_pgdir`, the template of every new
page directory, has no entry below `UTOP`, so that a new environment starts with
no user mapping.

* `envAlloc_ok` inverts `env_alloc`: it fails without a free slot or a free page
  and then changes nothing, or it fills the `dir` slot of the first free
  environment with the first free page (`EnvAllocated`). It may also `panic`,
  because `PADDR` refuses the kernel address of a page above 256 MB.
* `envFree_spec`: `env_free` of a live environment returns, and empties exactly
  the slots that environment owns (`EnvFreed`).
-/

namespace Jos

variable {B : Boot} {σ : State} {held : ℕ → ℕ} {free : List ℕ} {efree : List (Fin nenv)}

theorem paddr_eq_ok {kva pa : Word} :
    paddr kva = .ok pa ↔ kernbase ≤ kva ∧ pa = kva - kernbase := by
  rw [paddr, guard_eq_ok, BitVec.not_lt]

/-- The address space a slot belongs to. -/
def Slot.owner : Slot → Space
  | .dir e => some e
  | .pde a _ => a
  | .pte a _ _ => a

/-- The environment table: the free list has exactly the free slots. -/
structure EnvInv (σ : State) (efree : List (Fin nenv)) : Prop where
  chain : Chain (fun e => (σ.envs e).envLink) σ.envFreeList efree
  free_iff : ∀ e, e ∈ efree ↔ (σ.envs e).envStatus = .free
  pgdir : ∀ e, (σ.envs e).envStatus ≠ .free → kernbase ≤ (σ.envs e).envPgdir

section Table

variable {σ' : State} {e : Fin nenv} {rest : List (Fin nenv)} {v : Env}

/-- Taking the first slot off the free list of the table. -/
theorem EnvInv.pop (he : EnvInv σ (e :: rest)) (hupd : σ'.envs = Function.update σ.envs e v)
    (hlink : v.envLink = (σ.envs e).envLink) (hs : v.envStatus ≠ .free)
    (hp : kernbase ≤ v.envPgdir) (hfl : σ'.envFreeList = (σ.envs e).envLink) :
    EnvInv σ' rest where
  chain := by
    -- the chain is free of repetitions, so its tail does not lead through `e`
    have hnd := (List.nodup_cons.mp he.chain.nodup).1
    rw [hfl]
    apply he.chain.tail.congr
    intro e' he'
    rw [hupd, Function.update_of_ne (ne_of_mem_of_not_mem he' hnd)]
  free_iff e' := by
    have hnd := (List.nodup_cons.mp he.chain.nodup).1
    rw [hupd]
    by_cases hee : e' = e
    · subst hee
      rw [Function.update_self]
      exact iff_of_false hnd hs
    · rw [Function.update_of_ne hee, ← he.free_iff e', List.mem_cons]
      exact (or_iff_right hee).symm
  pgdir e' hlive := by
    rw [hupd] at hlive ⊢
    by_cases hee : e' = e
    · subst hee
      rw [Function.update_self]
      exact hp
    · rw [Function.update_of_ne hee] at hlive ⊢
      exact he.pgdir e' hlive

/-- Putting a live slot back on the free list of the table. -/
theorem EnvInv.push (he : EnvInv σ efree) (hlive : (σ.envs e).envStatus ≠ .free)
    (hupd : σ'.envs = Function.update σ.envs e v) (hlink : v.envLink = σ.envFreeList)
    (hs : v.envStatus = .free) (hfl : σ'.envFreeList = some e) : EnvInv σ' (e :: efree) where
  chain := by
    have hnd : e ∉ efree := fun hc => hlive ((he.free_iff e).mp hc)
    -- only the link of `e` changes, and it leads to the old head
    have hfun : (fun e' => (σ'.envs e').envLink) =
        Function.update (fun e' => (σ.envs e').envLink) e σ.envFreeList := by
      ext e'
      rw [hupd]
      by_cases hee : e' = e
      · rw [hee, Function.update_self, Function.update_self, hlink]
      · rw [Function.update_of_ne hee, Function.update_of_ne hee]
    rw [hfl, hfun]
    exact he.chain.push hnd
  free_iff e' := by
    rw [hupd, List.mem_cons]
    by_cases hee : e' = e
    · rw [hee, Function.update_self]
      exact iff_of_true (Or.inl rfl) hs
    · rw [Function.update_of_ne hee, ← he.free_iff e']
      exact or_iff_right hee
  pgdir e' hl := by
    rw [hupd] at hl ⊢
    by_cases hee : e' = e
    · rw [hee, Function.update_self] at hl
      exact absurd hs hl
    · rw [Function.update_of_ne hee] at hl ⊢
      exact he.pgdir e' hl

end Table

/-- The template of every page directory is empty below `UTOP`. -/
def KernLow (B : Boot) (σ : State) : Prop :=
  ∀ i : Fin 1024, i.val < 955 → entryOf (σ.mem B.kernFrame i) = none

/-! ### Writing an environment slot -/

section Writing

theorem setEnv_envs_self (e : Fin nenv) (v : Env) : (σ.setEnv e v).envs e = v := by
  simp [State.setEnv]

theorem setEnv_envs_of_ne {e e' : Fin nenv} (h : e' ≠ e) (v : Env) :
    (σ.setEnv e v).envs e' = σ.envs e' := by
  simp [State.setEnv, Function.update_of_ne h]

theorem dirFrame_setEnv_of_ne {e : Fin nenv} {a : Space} (h : a ≠ some e) (v : Env) :
    dirFrame B (σ.setEnv e v) a = dirFrame B σ a := by
  cases a with
  | none => rfl
  | some e' =>
    have hne : e' ≠ e := fun hc => h (by rw [hc])
    simp only [dirFrame, setEnv_envs_of_ne hne]

theorem dirFrame_live {e : Fin nenv} (hs : (σ.envs e).envStatus ≠ .free)
    (hp : kernbase ≤ (σ.envs e).envPgdir) :
    dirFrame B σ (some e) = some (frameAt (σ.envs e).envPgdir) := by
  have hne : (σ.envs e).envPgdir ≠ 0#32 := by
    intro h0
    rw [h0] at hp
    exact absurd hp (by decide)
  simp [dirFrame, hs, hne]

theorem dirFrame_free {e : Fin nenv} (hs : (σ.envs e).envStatus = .free) :
    dirFrame B σ (some e) = none := by
  simp [dirFrame, hs]

/-- A space without a page directory has no slots. -/
theorem slots_of_dirFrame_none {s : Slot} (h : dirFrame B σ s.owner = none) :
    slots B σ s = none := by
  cases s with
  | dir e => simp only [Slot.owner] at h; simp [slots, h]
  | pde a i => simp only [Slot.owner] at h; simp [slots, h]
  | pte a i j => simp only [Slot.owner] at h; simp [slots, h]

/-- Slots of the other spaces do not depend on the slot `e` of the table. -/
theorem slots_setEnv_of_ne {e : Fin nenv} (v : Env) {s : Slot} (hs : s.owner ≠ some e) :
    slots B (σ.setEnv e v) s = slots B σ s := by
  have hmem : (σ.setEnv e v).mem = σ.mem := rfl
  have hdir := dirFrame_setEnv_of_ne (B := B) (σ := σ) hs v
  cases s with
  | dir e' => simp only [Slot.owner] at hdir; simp only [slots, hdir]
  | pde a i => simp only [Slot.owner] at hdir; simp only [slots, hdir, hmem]
  | pte a i j => simp only [Slot.owner] at hdir; simp only [slots, hdir, hmem]

/-- Writing a slot of the table whose space has no entries is a write of its `dir`
slot. -/
theorem slots_setEnv {e : Fin nenv} {v : Env}
    (hold : ∀ s, s.owner = some e → s ≠ .dir e → slots B σ s = none)
    (hnew : ∀ s, s.owner = some e → s ≠ .dir e → slots B (σ.setEnv e v) s = none) :
    slots B (σ.setEnv e v) =
      Function.update (slots B σ) (.dir e) (slots B (σ.setEnv e v) (.dir e)) := by
  funext s
  by_cases hs : s = .dir e
  · rw [hs, Function.update_self]
  · rw [Function.update_of_ne hs]
    by_cases ho : s.owner = some e
    · rw [hold s ho hs, hnew s ho hs]
    · exact slots_setEnv_of_ne v ho

end Writing

/-! ### `env_alloc` -/

/-- What `env_alloc` has done when it returns the environment `e` with the page `p`
as its page directory. -/
structure EnvAllocated (B : Boot) (parentId : Word) (e : Fin nenv) (p : ℕ) (σ σ' : State) :
    Prop where
  envs : σ'.envs = Function.update σ.envs e
    (initEnv { σ.envs e with envPgdir := page2pa p + kernbase } e parentId)
  envFreeList : σ'.envFreeList = (σ.envs e).envLink
  curenv : ∀ cpu, σ'.curenv cpu = σ.curenv cpu
  slots : slots B σ' = Function.update (slots B σ) (.dir e) (some (p, 0#12))
  /-- The directory is a copy of the kernel's but for the `UVPT` slot. -/
  dir : σ'.mem p = Function.update (σ.mem B.kernFrame) (pdx uvpt) (page2pa p ||| pteP ||| pteU)
  other : ∀ f, f ≠ p → σ'.mem f = σ.mem f
  high : kernbase ≤ page2pa p + kernbase

/-- `env_setup_vm` once it has a page: the copy of the template and the store of the
`UVPT` entry write one frame. -/
theorem envSetupVm_eq {p : ℕ} {e : Fin nenv} {pgdir : Word} {σ₁ : State}
    (halloc : pageAlloc B allocZero σ = .ok (some p, σ₁)) (hkva : page2kva B p = .ok pgdir)
    (hframe : frameAt pgdir = p) :
    envSetupVm B e σ = paddr pgdir >>= fun pa => pure
      (0, ((σ₁.incRef p).setEnv e { (σ₁.incRef p).envs e with envPgdir := pgdir }).setFrame p
        (Function.update (σ₁.mem B.kernFrame) (pdx uvpt) (pa ||| pteP ||| pteU))) := by
  simp only [envSetupVm, halloc, ok_bind, hkva, hframe, State.store, State.setWord,
    State.setFrame, Function.update_self, Function.update_idem]
  rfl

/-- What `env_setup_vm` has done for the slot `e` with the page `p`. -/
structure VmSetUp (B : Boot) (e : Fin nenv) (p : ℕ) (σ σ' : State) : Prop where
  slots : slots B σ' = slots B σ
  envs : σ'.envs = Function.update σ.envs e { σ.envs e with envPgdir := page2pa p + kernbase }
  envFreeList : σ'.envFreeList = σ.envFreeList
  curenv : ∀ cpu, σ'.curenv cpu = σ.curenv cpu
  dir : σ'.mem p = Function.update (σ.mem B.kernFrame) (pdx uvpt) (page2pa p ||| pteP ||| pteU)
  other : ∀ f, f ≠ p → σ'.mem f = σ.mem f
  high : kernbase ≤ page2pa p + kernbase

/-- The directory of a free slot is no slot, so changing it is invisible. -/
theorem slots_setEnv_free {e : Fin nenv} {v : Env} (hs : (σ.envs e).envStatus = .free)
    (hv : v.envStatus = .free) : slots B (σ.setEnv e v) = slots B σ := by
  funext s
  by_cases ho : s.owner = some e
  · rw [slots_of_dirFrame_none, slots_of_dirFrame_none]
    · rw [ho]
      exact dirFrame_free hs
    · rw [ho]
      apply dirFrame_free
      rw [setEnv_envs_self]
      exact hv
  · exact slots_setEnv_of_ne v ho

/-- `env_setup_vm` for a free slot `e`: one reference to the new directory is in
hand, since a free slot does not count as one. -/
theorem envSetupVm_ok {p : ℕ} {e : Fin nenv} (h : PageInv B σ held (p :: free))
    (hs : (σ.envs e).envStatus = .free) {r : ℤ} {σ' : State}
    (hok : envSetupVm B e σ = .ok (r, σ')) :
    r = 0 ∧ PageInv B σ' (held + Pi.single p 1) free ∧ VmSetUp B e p σ σ' := by
  have hm : B.Managed p := h.free_managed p List.mem_cons_self
  have hfree : p ∉ free := (List.nodup_cons.mp h.chain.nodup).1
  obtain ⟨σ₁, halloc, hinv₁, hslots₁, hkeeps₁, -, hother₁, -⟩ := pageAlloc_spec h allocZero
  obtain ⟨hinv₂, hsame₂⟩ := incRef_spec hinv₁ hm hfree
  set pgdir := page2pa p + kernbase with hpgdir
  have hframe : frameAt pgdir = p := hm.frameAt_kva
  -- the slot is still free, so its new directory is no slot yet
  set σ₃ := (σ₁.incRef p).setEnv e { (σ₁.incRef p).envs e with envPgdir := pgdir } with hσ₃
  have henvs : (σ₁.incRef p).envs = σ.envs := by rw [hsame₂.envs, hkeeps₁.envs]
  have hs₂ : ((σ₁.incRef p).envs e).envStatus = .free := by rw [henvs, hs]
  have hslots₃ : slots B σ₃ = slots B σ := by
    rw [hσ₃, slots_setEnv_free hs₂, hsame₂.slots, hslots₁]
    exact hs₂
  have hunref : ∀ s, slotRef B σ₃ s ≠ some p := by
    intro s
    rw [slotRef_eq_of_slots hslots₃]
    exact h.slot_ne_of_mem List.mem_cons_self s
  have hkern : σ₁.mem B.kernFrame = σ.mem B.kernFrame := hother₁ _ hm.ne_kernFrame.symm
  rw [envSetupVm_eq halloc (page2kva_of_lt hm.1) hframe, ← hσ₃, hkern] at hok
  obtain ⟨pa, hpa, hret⟩ := bind_eq_ok.mp hok
  obtain ⟨hhigh, hpaeq⟩ := paddr_eq_ok.mp hpa
  rw [BitVec.add_sub_cancel] at hpaeq
  subst hpaeq
  -- and its frame is no table, so the copy of the template is invisible as well
  set c := Function.update (σ.mem B.kernFrame) (pdx uvpt) (page2pa p ||| pteP ||| pteU) with hc
  obtain ⟨hslots₄, hkeeps₄⟩ := setFrame_unref hunref hm c
  obtain ⟨rfl, rfl⟩ := Prod.mk.inj (Except.ok.inj hret)
  refine ⟨rfl, ?_, hslots₄.trans hslots₃, ?_, ?_, ?_, ?_, ?_, hhigh⟩
  · unfold PageInv at hinv₂ ⊢
    rw [slotRef_eq_of_slots (hslots₄.trans hslots₃),
      ← slotRef_eq_of_slots (hsame₂.slots.trans hslots₁)]
    exact hinv₂
  · change Function.update (σ₁.incRef p).envs e _ = _
    rw [henvs]
  · change (σ₁.incRef p).envFreeList = _
    rw [hsame₂.envFreeList, hkeeps₁.envFreeList]
  · intro cpu
    rw [← hkeeps₁.curenv cpu]
    exact congrArg CpuInfo.cpuEnv (congrFun hsame₂.cpus cpu)
  · simp [State.setFrame, hc]
  · intro f hf
    rw [← hother₁ f hf]
    simp only [State.setFrame, Function.update_of_ne hf]
    exact congrFun hsame₂.mem f

/-- The slots of a space whose page directory has no entry below `UTOP`. -/
theorem slots_of_empty_dir {e : Fin nenv} {d : ℕ} (hd : dirFrame B σ (some e) = some d)
    (hlow : ∀ i : Fin 1024, i.val < 955 → entryOf (σ.mem d i) = none) {s : Slot}
    (ho : s.owner = some e) (hs : s ≠ .dir e) : slots B σ s = none := by
  cases s with
  | dir e' =>
    obtain rfl : e' = e := Option.some.inj ho
    exact absurd rfl hs
  | pde a i =>
    obtain rfl : a = some e := ho
    by_cases hi : i.val < 955
    · rw [slots_pde hd (tracked_of_lt hi _), hlow i hi]
    · exact if_neg hi
  | pte a i j =>
    obtain rfl : a = some e := ho
    by_cases hi : i.val < 955
    · exact slots_pte_of_none hd (hlow i hi)
    · exact if_neg hi

/-- The rest of `env_alloc`, once `env_setup_vm` has given the slot `e` the page `p`:
the slot becomes live, and the reference in hand goes into its `dir` slot. -/
theorem envAlloc_commit {p : ℕ} {e : Fin nenv} {rest : List (Fin nenv)} {σ₁ σ' : State}
    {parentId : Word} (h : PageInv B σ held (p :: free)) (hvm : VmSetUp B e p σ σ₁)
    (he : EnvInv σ (e :: rest)) (hlow : KernLow B σ)
    (hinv : PageInv B σ₁ (held + Pi.single p 1) free)
    (hσ' : σ' = { σ₁.setEnv e (initEnv (σ₁.envs e) e parentId) with
      envFreeList := (σ.envs e).envLink }) :
    PageInv B σ' held free ∧ EnvInv σ' rest ∧ KernLow B σ' ∧ EnvAllocated B parentId e p σ σ' := by
  have hs : (σ.envs e).envStatus = .free := (he.free_iff e).mp List.mem_cons_self
  have hm : B.Managed p := h.free_managed p List.mem_cons_self
  have henv : σ₁.envs e = { σ.envs e with envPgdir := page2pa p + kernbase } := by
    rw [hvm.envs, Function.update_self]
  rw [henv] at hσ'
  set v := initEnv { σ.envs e with envPgdir := page2pa p + kernbase } e parentId with hv
  have hlive : v.envStatus ≠ .free := by simp [hv, initEnv]
  have hupd : σ'.envs = Function.update σ.envs e v := by
    rw [hσ']
    change Function.update σ₁.envs e v = _
    rw [hvm.envs, Function.update_idem]
  have hmem : σ'.mem = σ₁.mem := by rw [hσ']; rfl
  have hdf : dirFrame B σ' (some e) = some p := by
    rw [dirFrame_live, hupd, Function.update_self]
    · exact congrArg some hm.frameAt_kva
    · rw [hupd, Function.update_self]
      exact hlive
    · rw [hupd, Function.update_self]
      exact hvm.high
  -- the new directory is a copy of the template, which is empty below `UTOP`
  have hempty : ∀ i : Fin 1024, i.val < 955 → entryOf (σ'.mem p i) = none := by
    intro i hi
    have hne : i ≠ pdx uvpt := tracked_of_lt hi none
    rw [hmem, hvm.dir, Function.update_of_ne hne]
    exact hlow i hi
  have hfree₁ : dirFrame B σ₁ (some e) = none := dirFrame_free (by rw [henv]; exact hs)
  have hset : slots B σ' = slots B (σ₁.setEnv e v) := by
    rw [hσ']
    exact slots_eq_of_mem rfl rfl
  have hslots : slots B σ' = Function.update (slots B σ) (.dir e) (some (p, 0#12)) := by
    have hwrite := slots_setEnv (B := B) (σ := σ₁) (e := e) (v := v)
      (fun s ho _ => slots_of_dirFrame_none (by rw [ho, hfree₁]))
      (fun s ho hne => by rw [← hset]; exact slots_of_empty_dir hdf hempty ho hne)
    rw [← hset, hvm.slots] at hwrite
    rw [hwrite]
    congr 1
    simp only [slots, hdf, Option.map_some]
  have hunref : ∀ s, slotRef B σ₁ s ≠ some p := by
    intro s
    rw [slotRef_eq_of_slots hvm.slots]
    exact h.slot_ne_of_mem List.mem_cons_self s
  have hlink : v.envLink = (σ.envs e).envLink := rfl
  refine ⟨?_, ?_, ?_, ⟨hupd, by rw [hσ'], ?_, hslots, by rw [hmem, hvm.dir], ?_, hvm.high⟩⟩
  · have hnone : slotRef B σ₁ (.dir e) = none := by rw [slotRef_dir, hfree₁]
    have hfill := hinv.fill hnone (fun _ => refCount_eq_zero.mpr hunref) fun s _ => hunref s
    unfold PageInv
    rw [slotRef_update hslots, ← slotRef_eq_of_slots hvm.slots, hσ']
    exact hfill
  · exact he.pop hupd hlink hlive hvm.high (by rw [hσ'])
  · intro i hi
    rw [hmem, hvm.other _ hm.ne_kernFrame.symm]
    exact hlow i hi
  · intro cpu
    rw [← hvm.curenv cpu, hσ']
    rfl
  · intro f hf
    rw [hmem, hvm.other f hf]

/-- The ways through `env_alloc`. -/
theorem envAlloc_ok (h : PageInv B σ held free) (he : EnvInv σ efree) (hlow : KernLow B σ)
    {parentId : Word} {r : ℤ} {ne : Option (Fin nenv)} {σ' : State}
    (hok : envAlloc B parentId σ = .ok (r, ne, σ')) :
    (efree = [] ∧ r = -eNoFreeEnv ∧ ne = none ∧ σ' = σ) ∨
    (free = [] ∧ r = -eNoMem ∧ ne = none ∧ σ' = σ) ∨
    ∃ e rest p free', efree = e :: rest ∧ free = p :: free' ∧ r = 0 ∧ ne = some e ∧
      PageInv B σ' held free' ∧ EnvInv σ' rest ∧ KernLow B σ' ∧
      EnvAllocated B parentId e p σ σ' := by
  cases efree with
  | nil =>
    left
    rw [envAlloc, he.chain.head_none_iff.mpr rfl] at hok
    obtain ⟨rfl, hrest⟩ := Prod.mk.inj (Except.ok.inj hok)
    obtain ⟨rfl, rfl⟩ := Prod.mk.inj hrest
    exact ⟨rfl, rfl, rfl, rfl⟩
  | cons e rest =>
    right
    have hs : (σ.envs e).envStatus = .free := (he.free_iff e).mp List.mem_cons_self
    rw [envAlloc, he.chain.head_eq] at hok
    obtain ⟨⟨r₁, σ₁⟩, hsetup, hok⟩ := bind_eq_ok.mp hok
    cases free with
    | nil =>
      left
      rw [envSetupVm, pageAlloc_nil h] at hsetup
      obtain ⟨rfl, rfl⟩ := Prod.mk.inj (Except.ok.inj hsetup)
      simp only [eNoMem] at hok
      obtain ⟨rfl, hrest⟩ := Prod.mk.inj (Except.ok.inj hok)
      obtain ⟨rfl, rfl⟩ := Prod.mk.inj hrest
      exact ⟨rfl, rfl, rfl, rfl⟩
    | cons p free' =>
      right
      obtain ⟨rfl, hinv, hvm⟩ := envSetupVm_ok h hs hsetup
      simp only [lt_self_iff_false, if_false] at hok
      obtain ⟨rfl, hrest⟩ := Prod.mk.inj (Except.ok.inj hok)
      obtain ⟨rfl, hσ'⟩ := Prod.mk.inj hrest
      refine ⟨e, rest, p, free', rfl, rfl, rfl, rfl, envAlloc_commit h hvm he hlow hinv ?_⟩
      -- the code reads `env_link` off the slot it has just filled
      rw [← hσ', setEnv_envs_self, hvm.envs, Function.update_self]
      rfl

/-- Below 256 MB a page has an address above `KERNBASE`. -/
theorem kernbase_le_page2pa_iff {p : ℕ} (hp : p < 2 ^ 20) :
    kernbase ≤ page2pa p + kernbase ↔ p < 65536 := by
  rw [BitVec.le_def, BitVec.toNat_add, page2pa_toNat hp,
    show kernbase.toNat = 0xF0000000 from rfl]
  omega

/-- `env_alloc` returns when the page it takes is below 256 MB. -/
theorem envAlloc_of_lt {p : ℕ} {e : Fin nenv} {rest : List (Fin nenv)}
    (h : PageInv B σ held (p :: free)) (he : EnvInv σ (e :: rest)) (hp : p < 65536)
    (parentId : Word) : ∃ r ne σ', envAlloc B parentId σ = .ok (r, ne, σ') := by
  have hm : B.Managed p := h.free_managed p List.mem_cons_self
  obtain ⟨σ₁, halloc, -⟩ := pageAlloc_spec h allocZero
  rw [envAlloc, he.chain.head_eq]
  simp only [envSetupVm_eq halloc (page2kva_of_lt hm.1) hm.frameAt_kva,
    paddr_eq_ok.mpr ⟨(kernbase_le_page2pa_iff (by omega)).mpr hp, rfl⟩, ok_bind]
  exact ⟨_, _, _, rfl⟩

/-- `env_alloc` returns on a machine with no more than 256 MB. -/
theorem envAlloc_returns (h : PageInv B σ held free) (he : EnvInv σ efree)
    (hsmall : B.npages ≤ 65536) (parentId : Word) :
    ∃ r ne σ', envAlloc B parentId σ = .ok (r, ne, σ') := by
  cases efree with
  | nil =>
    rw [envAlloc, he.chain.head_none_iff.mpr rfl]
    exact ⟨_, _, _, rfl⟩
  | cons e rest =>
    cases free with
    | nil =>
      have hvm : envSetupVm B e σ = .ok (-eNoMem, σ) := by
        rw [envSetupVm, pageAlloc_nil h]
        rfl
      rw [envAlloc, he.chain.head_eq]
      simp only [hvm, ok_bind]
      exact ⟨_, _, _, rfl⟩
    | cons p free =>
      exact envAlloc_of_lt h he ((h.free_managed p List.mem_cons_self).1.trans_le hsmall) parentId

/-! ### `env_free` -/

/-- What `env_free` has done. -/
structure EnvFreed (B : Boot) (held : ℕ → ℕ) (e : Fin nenv) (σ : State) (free : List ℕ)
    (σ' : State) (free' : List ℕ) : Prop where
  clears : Clears B held {s | s.owner = some e} σ free σ' free'
  envs : σ'.envs = Function.update σ.envs e
    { σ.envs e with envPgdir := 0#32, envStatus := .free, envLink := σ.envFreeList }
  envFreeList : σ'.envFreeList = some e
  curenv : ∀ cpu, σ'.curenv cpu = σ.curenv cpu
  /-- The directory entries at and above `UTOP`. -/
  upper : ∀ a d, dirFrame B σ a = some d → ∀ k : Fin 1024, 955 ≤ k.val → σ'.mem d k = σ.mem d k
  /-- The tables of the kernel's entries at and above `UTOP`. -/
  upperTable : ∀ (k : Fin 1024) t, 955 ≤ k.val → k ≠ pdx uvpt →
    entryOf (σ.mem B.kernFrame k) = some t → σ'.mem t.1 = σ.mem t.1
  unmanaged : ∀ p, ¬B.Managed p → σ'.ref p = σ.ref p

theorem mem_userPdes (i : Fin 1024) : i ∈ userPdes ↔ i.val < 955 := by
  rw [userPdes, List.mem_filter, decide_eq_true_iff, Fin.lt_def, pdx_utop]
  exact and_iff_right (List.mem_finRange i)

/-- The slots of an environment besides its page directory are those of its user
page tables. -/
theorem mem_pdeSlots_userPdes {e : Fin nenv} {s : Slot} (ho : s.owner = some e)
    (hs : s ≠ .dir e) (hn : s ∉ pdeSlots (some e) userPdes) : slots B σ s = none := by
  cases s with
  | dir e' =>
    obtain rfl : e' = e := Option.some.inj ho
    exact absurd rfl hs
  | pde a i =>
    obtain rfl : a = some e := ho
    refine if_neg fun hi => hn ⟨i, (mem_userPdes i).mpr hi, Or.inl rfl⟩
  | pte a i j =>
    obtain rfl : a = some e := ho
    refine if_neg fun hi => hn ⟨i, (mem_userPdes i).mpr hi, Or.inr ⟨j, rfl⟩⟩

theorem kernbase_le_kernPgdir (B : Boot) : kernbase ≤ B.kernPgdir := by
  have h := B.kernPgdir_toNat.1
  have hge := B.imageEnd_ge
  rw [BitVec.le_def, h, show kernbase.toNat = 0xF0000000 from rfl]
  omega

/-- `lcr3` touches the processor only. -/
theorem lcr3_keeps (cpu : ℕ) (pa : Word) (σ : State) : Keeps B σ (lcr3 cpu pa σ) ∧
    (lcr3 cpu pa σ).pages = σ.pages ∧ (lcr3 cpu pa σ).pageFreeList = σ.pageFreeList ∧
    (lcr3 cpu pa σ).mem = σ.mem := by
  refine ⟨⟨rfl, rfl, ?_, fun _ _ _ _ _ => rfl, fun _ _ _ _ _ => rfl, fun _ _ => rfl⟩,
    rfl, rfl, rfl⟩
  intro c
  unfold State.curenv lcr3 State.setCpu
  by_cases hc : c = cpu
  · subst hc
    simp
  · simp [Function.update_of_ne hc]

theorem switchAway_spec (B : Boot) (cpu : ℕ) (e : Fin nenv) (σ : State) :
    ∃ σ₁, switchAway B cpu e σ = .ok σ₁ ∧ Keeps B σ σ₁ ∧ σ₁.pages = σ.pages ∧
      σ₁.pageFreeList = σ.pageFreeList ∧ σ₁.mem = σ.mem := by
  by_cases hc : σ.curenv cpu = some e
  · have hpa := paddr_eq_ok.mpr ⟨kernbase_le_kernPgdir B, rfl⟩
    refine ⟨lcr3 cpu (B.kernPgdir - kernbase) σ, ?_, lcr3_keeps cpu _ σ⟩
    rw [switchAway, if_pos hc, hpa]
    rfl
  · exact ⟨σ, by rw [switchAway, if_neg hc], Keeps.refl B σ, rfl, rfl, rfl⟩

/-- The page invariant reads `pages`, the head of the free list and the slots. -/
theorem PageInv.congr {σ' : State} (h : PageInv B σ held free) (hpages : σ'.pages = σ.pages)
    (hfl : σ'.pageFreeList = σ.pageFreeList) (hslots : slots B σ' = slots B σ) :
    PageInv B σ' held free := by
  unfold PageInv State.link State.ref
  rw [hpages, hfl, slotRef_eq_of_slots hslots]
  exact h

/-- The first half of `env_free`: the user part of the address space is emptied. -/
theorem unmapUser_spec (h : PageInv B σ held free) {e : Fin nenv}
    (hd : dirFrame B σ (some e) = some (frameAt (σ.envs e).envPgdir))
    (hbound : ∀ p, refs B σ p + held p ≤ 65535) (cpu : ℕ) :
    ∃ σ₁ σ₂ free₂, switchAway B cpu e σ = .ok σ₁ ∧ σ₁.envs = σ.envs ∧
      userPdes.foldlM (unmapPde B cpu (σ.envs e).envPgdir) σ₁ = .ok σ₂ ∧
      Clears B held (pdeSlots (some e) userPdes) σ free σ₂ free₂ ∧ Keeps B σ σ₂ := by
  obtain ⟨σ₁, hswitch, hkeeps₁, hpages₁, hfl₁, hmem₁⟩ := switchAway_spec B cpu e σ
  have hslots₁ : slots B σ₁ = slots B σ := slots_eq_of_mem hmem₁ hkeeps₁.envs
  have hinv₁ : PageInv B σ₁ held free := h.congr hpages₁ hfl₁ hslots₁
  have hfirst : Clears B held ∅ σ free σ₁ free :=
    Clears.same hinv₁ hslots₁ fun s hs => absurd hs (Set.notMem_empty s)
  have hd₁ : dirFrame B σ₁ (some e) = some (frameAt (σ.envs e).envPgdir) := by
    rw [hkeeps₁.dirFrame, hd]
  obtain ⟨σ₂, free₂, hloop, hcl₂, hkeeps₂⟩ := unmapPdes_spec cpu userPdes
    (fun i hi => (mem_userPdes i).mp hi) hinv₁ hd₁ (hfirst.bound hbound)
  exact ⟨σ₁, σ₂, free₂, hswitch, hkeeps₁.envs, hloop,
    (hfirst.trans hcl₂).congr (Set.empty_union _).symm, hkeeps₁.trans hkeeps₂⟩

/-- The second half of `env_free`, for an environment that has nothing left but its page
directory: the directory is given back and the slot marked free. -/
theorem freeDir_spec (h : PageInv B σ held free) {e : Fin nenv}
    (hd : dirFrame B σ (some e) = some (frameAt (σ.envs e).envPgdir))
    (hempty : ∀ s, s.owner = some e → s ≠ .dir e → slots B σ s = none)
    (hbound : ∀ p, refs B σ p + held p ≤ 65535) :
    ∃ σ₁ σ' free', pageDecref (frameAt (σ.envs e).envPgdir)
        (σ.setEnv e { σ.envs e with envPgdir := 0#32 }) = .ok σ₁ ∧
      σ' = { σ₁.setEnv e { σ₁.envs e with envStatus := .free, envLink := σ₁.envFreeList } with
        envFreeList := some e } ∧
      Clears B held {.dir e} σ free σ' free' ∧
      σ'.envs = Function.update σ.envs e
        { σ.envs e with envPgdir := 0#32, envStatus := .free, envLink := σ.envFreeList } ∧
      σ'.mem = σ.mem ∧ σ'.cpus = σ.cpus ∧ ∀ p, ¬B.Managed p → σ'.ref p = σ.ref p := by
  have hdir : slots B σ (.dir e) = some (frameAt (σ.envs e).envPgdir, 0#12) := by
    simp only [slots, hd, Option.map_some]
  -- dropping `env_pgdir` empties the last slot
  set σ₀ := σ.setEnv e { σ.envs e with envPgdir := 0#32 } with hσ₀
  have hd₀ : dirFrame B σ₀ (some e) = none := by
    simp [dirFrame, hσ₀, setEnv_envs_self]
  have hslots₀ : slots B σ₀ = Function.update (slots B σ) (.dir e) none := by
    rw [hσ₀, slots_setEnv hempty fun s ho _ => slots_of_dirFrame_none (by rw [ho]; exact hd₀),
      ← hσ₀, slots_of_dirFrame_none (s := .dir e) hd₀]
  have hb := hbound (frameAt (σ.envs e).envPgdir)
  obtain ⟨σ₁, hdec, hsame₁, hinv₁⟩ := pageDecref_cleared h hdir hslots₀ rfl rfl (by omega)
  have henvs₁ : σ₁.envs = Function.update σ.envs e { σ.envs e with envPgdir := 0#32 } :=
    hsame₁.envs
  have hefl₁ : σ₁.envFreeList = σ.envFreeList := hsame₁.envFreeList
  -- without a directory the slot counts for nothing, so marking it is invisible
  set σ₂ := σ₁.setEnv e { σ₁.envs e with envStatus := .free, envLink := σ₁.envFreeList } with hσ₂
  have hd₁ : dirFrame B σ₁ (some e) = none := by rw [hsame₁.keeps.dirFrame, hd₀]
  have hd₂ : dirFrame B σ₂ (some e) = none := dirFrame_free (by rw [hσ₂, setEnv_envs_self])
  set σ' : State := { σ₂ with envFreeList := some e } with hσ'
  have hslots' : slots B σ' = slots B σ₁ := by
    rw [show slots B σ' = slots B σ₂ from slots_eq_of_mem rfl rfl]
    funext s
    by_cases ho : s.owner = some e
    · rw [slots_of_dirFrame_none (by rw [ho]; exact hd₂),
        slots_of_dirFrame_none (by rw [ho]; exact hd₁)]
    · exact slots_setEnv_of_ne _ ho
  refine ⟨σ₁, σ', _, hdec, rfl, Clears.single (hinv₁.congr rfl rfl hslots') ?_ rfl, ?_, hsame₁.mem,
    hsame₁.cpus, hsame₁.unmanaged⟩
  · rw [hslots', hsame₁.slots, hslots₀]
  · change Function.update σ₁.envs e _ = _
    rw [hefl₁, henvs₁, Function.update_self, Function.update_idem]

/-- `env_free` of a live environment returns. -/
theorem envFree_spec (h : PageInv B σ held free) (he : EnvInv σ efree) {e : Fin nenv}
    (hlive : (σ.envs e).envStatus ≠ .free) (hbound : ∀ p, refs B σ p + held p ≤ 65535)
    (cpu : ℕ) :
    ∃ σ' free', envFree B cpu e σ = .ok σ' ∧ EnvFreed B held e σ free σ' free' ∧
      EnvInv σ' (e :: efree) := by
  have hhigh := he.pgdir e hlive
  have hd : dirFrame B σ (some e) = some (frameAt (σ.envs e).envPgdir) := dirFrame_live hlive hhigh
  obtain ⟨σ₁, σ₂, free₂, hswitch, henvs₁, hloop, hcl₂, hkeeps⟩ := unmapUser_spec h hd hbound cpu
  have hd₂ : dirFrame B σ₂ (some e) = some (frameAt (σ₂.envs e).envPgdir) := by
    rw [hkeeps.dirFrame, hd, hkeeps.envs]
  have hempty₂ : ∀ s, s.owner = some e → s ≠ .dir e → slots B σ₂ s = none := by
    intro s ho hs
    by_cases hmem : s ∈ pdeSlots (some e) userPdes
    · exact hcl₂.cleared s hmem
    · exact mem_pdeSlots_userPdes ho hs hmem
  have hm : B.Managed (frameAt (σ.envs e).envPgdir) :=
    h.slot_managed (.dir e) _ (by rw [slotRef_dir, hd])
  obtain ⟨σ₃, σ', free', hdec, hσ', hlast, hupd, hmem, hcpus, hun⟩ :=
    freeDir_spec hcl₂.inv hd₂ hempty₂ (hcl₂.bound hbound)
  rw [hkeeps.envs] at hdec hupd
  rw [hkeeps.envFreeList] at hupd
  have hfl : σ'.envFreeList = some e := by rw [hσ']
  refine ⟨σ', free', ?_, ⟨?_, hupd, hfl, ?_, ?_, ?_, ?_⟩, he.push hlive hupd rfl rfl hfl⟩
  · have hpg : pgnum ((σ.envs e).envPgdir - kernbase) = frameAt (σ.envs e).envPgdir := rfl
    unfold envFree
    rw [hswitch, ok_bind, henvs₁]
    simp only [hloop, ok_bind]
    rw [paddr_eq_ok.mpr ⟨hhigh, rfl⟩, ok_bind, pa2page_of_lt (by rw [hpg]; exact hm.1), ok_bind,
      hpg, hkeeps.envs, hdec, ok_bind, hσ']
    rfl
  · -- the slots of the environment are those of the two halves, and empty ones
    refine (hcl₂.trans hlast).extend ?_ ?_
    · rintro s (⟨i, -, rfl | ⟨j, rfl⟩⟩ | hs)
      · rfl
      · rfl
      · rw [Set.mem_singleton_iff.mp hs]
        rfl
    · intro s ho hn
      rw [Set.mem_union, not_or] at hn
      exact mem_pdeSlots_userPdes ho hn.2 hn.1
  · intro c
    rw [← hkeeps.curenv c]
    exact congrArg CpuInfo.cpuEnv (congrFun hcpus c)
  · intro a d hd k hk
    rw [hmem]
    exact hkeeps.upper a d hd k hk
  · intro k t hk hu ht
    rw [hmem]
    exact hkeeps.upperTable k t hk hu ht
  · intro p hp
    rw [← hkeeps.unmanaged p hp]
    exact hun p hp

end Jos
