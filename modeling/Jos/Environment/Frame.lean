import Jos.Kern.Env

/-!
# What the kernel does to the environment table

The memory operations do not touch the environment table, the list of free
environments or any `curenv` (`SameTable`). It follows what `env_alloc` and
`env_free` do to them, for every state in which they return: `envAlloc_table`,
`envFree_table`. Nothing here depends on the page invariant, so the results about
environments that are built on this file hold whatever happens to memory.
-/

namespace Jos

variable {B : Boot} {σ σ' σ'' : State} {cpu : ℕ} {e : Fin nenv}

/-- The environment table, its free list and the current environments are the
same. -/
structure SameTable (σ σ' : State) : Prop where
  envs : σ'.envs = σ.envs
  envFreeList : σ'.envFreeList = σ.envFreeList
  curenv : ∀ cpu, σ'.curenv cpu = σ.curenv cpu

theorem SameTable.refl (σ : State) : SameTable σ σ := ⟨rfl, rfl, fun _ => rfl⟩

theorem SameTable.trans (h : SameTable σ σ') (h' : SameTable σ' σ'') : SameTable σ σ'' where
  envs := h'.envs.trans h.envs
  envFreeList := h'.envFreeList.trans h.envFreeList
  curenv cpu := (h'.curenv cpu).trans (h.curenv cpu)

/-- Writing what a processor has besides its `cpu_env`. -/
theorem SameTable.setCpu {v : CpuInfo} (h : v.cpuEnv = σ.curenv cpu) :
    SameTable σ (σ.setCpu cpu v) := by
  refine ⟨rfl, rfl, ?_⟩
  intro c
  unfold State.curenv State.setCpu
  by_cases hc : c = cpu
  · subst hc
    simpa [State.curenv] using h
  · simp [Function.update_of_ne hc]

/-- Environment `e` is in use. -/
def Live (σ : State) (e : Fin nenv) : Prop := (σ.envs e).envStatus ≠ .free

/-! ### The memory operations -/

/-- A loop whose body keeps the table keeps it. -/
theorem foldlM_table {α : Type} {f : State → α → Except Panic State}
    (hf : ∀ τ a τ', f τ a = .ok τ' → SameTable τ τ') {l : List α}
    (h : l.foldlM f σ = .ok σ') : SameTable σ σ' := by
  induction l generalizing σ with
  | nil =>
    obtain rfl := Except.ok.inj h
    exact SameTable.refl σ
  | cons a l ih =>
    rw [List.foldlM_cons] at h
    obtain ⟨τ, hstep, hrest⟩ := bind_eq_ok.mp h
    exact (hf σ a τ hstep).trans (ih hrest)

theorem pageAlloc_table {flags : Word} {r : Option ℕ} (h : pageAlloc B flags σ = .ok (r, σ')) :
    SameTable σ σ' := by
  unfold pageAlloc at h
  split at h
  · obtain ⟨-, rfl⟩ := Prod.mk.inj (Except.ok.inj h)
    exact SameTable.refl σ
  · simp only at h
    split at h
    · obtain ⟨kva, -, hret⟩ := bind_eq_ok.mp h
      obtain ⟨-, rfl⟩ := Prod.mk.inj (Except.ok.inj hret)
      exact ⟨rfl, rfl, fun _ => rfl⟩
    · obtain ⟨-, rfl⟩ := Prod.mk.inj (Except.ok.inj h)
      exact ⟨rfl, rfl, fun _ => rfl⟩

theorem pageFree_table {pp : ℕ} (h : pageFree pp σ = .ok σ') : SameTable σ σ' := by
  unfold pageFree at h
  split at h
  · cases h
  · obtain rfl := Except.ok.inj h
    exact ⟨rfl, rfl, fun _ => rfl⟩

theorem pageDecref_table {pp : ℕ} (h : pageDecref pp σ = .ok σ') : SameTable σ σ' := by
  have hset : SameTable σ (σ.setRef pp (σ.ref pp - 1#16)) := ⟨rfl, rfl, fun _ => rfl⟩
  simp only [pageDecref] at h
  split at h
  · exact hset.trans (pageFree_table h)
  · obtain rfl := Except.ok.inj h
    exact hset

theorem walkTable_state {pde va : Word} {r : Option PtePtr}
    (h : walkTable B pde va σ = .ok (r, σ')) : σ' = σ := by
  obtain ⟨kva, -, hret⟩ := bind_eq_ok.mp h
  exact (Prod.mk.inj (Except.ok.inj hret)).2.symm

/-- A walk that creates nothing changes nothing. -/
theorem pgdirWalk_false {pgdir va : Word} {r : Option PtePtr}
    (h : pgdirWalk B pgdir va false σ = .ok (r, σ')) : σ' = σ := by
  simp only [pgdirWalk, Bool.false_eq_true, if_false] at h
  split at h
  · exact walkTable_state h
  · exact (Prod.mk.inj (Except.ok.inj h)).2.symm

theorem pgdirWalk_table {pgdir va : Word} {create : Bool} {r : Option PtePtr}
    (h : pgdirWalk B pgdir va create σ = .ok (r, σ')) : SameTable σ σ' := by
  cases create with
  | false =>
    obtain rfl := pgdirWalk_false h
    exact SameTable.refl _
  | true =>
    simp only [pgdirWalk, if_true] at h
    split at h
    · obtain rfl := walkTable_state h
      exact SameTable.refl _
    · -- a new page table: only `pp_ref` and the page directory are written besides
      obtain ⟨⟨page, σ₁⟩, halloc, hrest⟩ := bind_eq_ok.mp h
      have hsame := pageAlloc_table halloc
      cases page with
      | none =>
        obtain ⟨-, rfl⟩ := Prod.mk.inj (Except.ok.inj hrest)
        exact hsame
      | some page =>
        obtain rfl := walkTable_state hrest
        exact hsame.trans ⟨rfl, rfl, fun _ => rfl⟩

theorem bootMapLoop_table {pgdir perm : Word} {n : ℕ} {va pa : Word}
    (h : bootMapLoop B pgdir perm n va pa σ = .ok σ') : SameTable σ σ' := by
  induction n generalizing σ va pa with
  | zero =>
    obtain rfl := Except.ok.inj h
    exact SameTable.refl _
  | succ n ih =>
    obtain ⟨⟨pte, σ₁⟩, hwalk, hrest⟩ := bind_eq_ok.mp h
    cases pte with
    | none => cases hrest
    | some pte =>
      have hstore : SameTable σ₁ (σ₁.store pte (pa ||| perm ||| pteP)) := ⟨rfl, rfl, fun _ => rfl⟩
      exact ((pgdirWalk_table hwalk).trans hstore).trans (ih hrest)

theorem pageLookup_state {pgdir va : Word} {r : Option (ℕ × PtePtr)}
    (h : pageLookup B pgdir va σ = .ok (r, σ')) : σ' = σ := by
  obtain ⟨⟨pte, σ₁⟩, hwalk, hrest⟩ := bind_eq_ok.mp h
  obtain rfl := pgdirWalk_false hwalk
  cases pte with
  | none => exact (Prod.mk.inj (Except.ok.inj hrest)).2.symm
  | some pte =>
    simp only at hrest
    split at hrest
    · obtain ⟨page, -, hret⟩ := bind_eq_ok.mp hrest
      exact (Prod.mk.inj (Except.ok.inj hret)).2.symm
    · exact (Prod.mk.inj (Except.ok.inj hrest)).2.symm

theorem tlbInvalidate_table (cpu : ℕ) (pgdir va : Word) (σ : State) :
    SameTable σ (tlbInvalidate cpu pgdir va σ) := by
  have hinv : SameTable σ (invlpg cpu va σ) := SameTable.setCpu rfl
  unfold tlbInvalidate
  split
  · exact hinv
  · split
    · exact hinv
    · exact SameTable.refl σ

theorem pageRemove_table {pgdir va : Word} (h : pageRemove B cpu pgdir va σ = .ok σ') :
    SameTable σ σ' := by
  obtain ⟨⟨found, σ₁⟩, hlook, hrest⟩ := bind_eq_ok.mp h
  obtain rfl := pageLookup_state hlook
  cases found with
  | none =>
    obtain rfl := Except.ok.inj hrest
    exact SameTable.refl _
  | some u =>
    obtain ⟨page, pte⟩ := u
    simp only at hrest
    split at hrest
    · obtain ⟨σ₂, hdec, hret⟩ := bind_eq_ok.mp hrest
      obtain rfl := Except.ok.inj hret
      have hstore : SameTable σ₁ (σ₁.store pte 0#32) := ⟨rfl, rfl, fun _ => rfl⟩
      exact (hstore.trans (pageDecref_table hdec)).trans (tlbInvalidate_table cpu pgdir va σ₂)
    · obtain rfl := Except.ok.inj hrest
      exact SameTable.refl _

/-- What `page_insert` does at the entry it has found: it counts the page, takes an old
mapping away, and writes the entry. -/
theorem pageInsertAt_ok {pgdir va perm : Word} {pp : ℕ} {pte : PtePtr} {r : ℤ}
    (h : pageInsertAt B cpu pgdir pp va perm pte σ = .ok (r, σ')) :
    ∃ σ₁, (pageRemove B cpu pgdir va (σ.incRef pp) = .ok σ₁ ∨ σ₁ = σ.incRef pp) ∧
      σ' = σ₁.store pte (page2pa pp ||| perm ||| pteP) := by
  unfold pageInsertAt at h
  dsimp only at h
  split at h
  · obtain ⟨σ₁, hrem, hret⟩ := bind_eq_ok.mp h
    exact ⟨σ₁, Or.inl hrem, (Prod.mk.inj (Except.ok.inj hret)).2.symm⟩
  · exact ⟨_, Or.inr rfl, (Prod.mk.inj (Except.ok.inj h)).2.symm⟩

theorem pageInsert_table {pgdir va perm : Word} {pp : ℕ} {r : ℤ}
    (h : pageInsert B cpu pgdir pp va perm σ = .ok (r, σ')) : SameTable σ σ' := by
  obtain ⟨⟨pte, σ₁⟩, hwalk, hrest⟩ := bind_eq_ok.mp h
  have hsame := pgdirWalk_table hwalk
  cases pte with
  | none =>
    obtain ⟨-, rfl⟩ := Prod.mk.inj (Except.ok.inj hrest)
    exact hsame
  | some pte =>
    obtain ⟨σ₂, hold, rfl⟩ := pageInsertAt_ok hrest
    have hinc : SameTable σ₁ (σ₁.incRef pp) := ⟨rfl, rfl, fun _ => rfl⟩
    have hstore : SameTable σ₂ (σ₂.store pte (page2pa pp ||| perm ||| pteP)) :=
      ⟨rfl, rfl, fun _ => rfl⟩
    refine (hsame.trans hinc).trans (SameTable.trans ?_ hstore)
    obtain hrem | rfl := hold
    · exact pageRemove_table hrem
    · exact SameTable.refl _

/-! ### `env_free` -/

theorem unmapPte_table {pgdir pt : Word} {i j : Fin 1024}
    (h : unmapPte B cpu pgdir pt i σ j = .ok σ') : SameTable σ σ' := by
  unfold unmapPte at h
  split at h
  · exact pageRemove_table h
  · obtain rfl := Except.ok.inj h
    exact SameTable.refl σ

theorem unmapPde_table {pgdir : Word} {i : Fin 1024} (h : unmapPde B cpu pgdir σ i = .ok σ') :
    SameTable σ σ' := by
  unfold unmapPde at h
  split at h
  · obtain ⟨pt, -, h₁⟩ := bind_eq_ok.mp h
    obtain ⟨σ₁, hloop, h₂⟩ := bind_eq_ok.mp h₁
    obtain ⟨page, -, hdec⟩ := bind_eq_ok.mp h₂
    have hstore : SameTable σ₁ (σ₁.store (pgdir, i) 0#32) := ⟨rfl, rfl, fun _ => rfl⟩
    exact ((foldlM_table (fun _ _ _ => unmapPte_table) hloop).trans hstore).trans
      (pageDecref_table hdec)
  · obtain rfl := Except.ok.inj h
    exact SameTable.refl σ

theorem lcr3_table (cpu : ℕ) (pa : Word) (σ : State) : SameTable σ (lcr3 cpu pa σ) :=
  SameTable.setCpu rfl

theorem switchAway_table (h : switchAway B cpu e σ = .ok σ') : SameTable σ σ' := by
  unfold switchAway at h
  split at h
  · cases hpa : paddr B.kernPgdir with
    | error p =>
      rw [hpa] at h
      cases h
    | ok pa =>
      rw [hpa] at h
      obtain rfl := Except.ok.inj h
      exact lcr3_table cpu pa σ
  · obtain rfl := Except.ok.inj h
    exact SameTable.refl σ

/-- When `env_free` returns, its slot is free and heads the free list, and keeps its
id; the rest of the table is unchanged. -/
theorem envFree_table (h : envFree B cpu e σ = .ok σ') :
    σ'.envs = Function.update σ.envs e
      { σ.envs e with envPgdir := 0#32, envStatus := .free, envLink := σ.envFreeList } ∧
    σ'.envFreeList = some e ∧ ∀ c, σ'.curenv c = σ.curenv c := by
  obtain ⟨σ₁, hswitch, h₁⟩ := bind_eq_ok.mp h
  obtain ⟨σ₂, hloop, h₂⟩ := bind_eq_ok.mp h₁
  obtain ⟨pa, -, h₃⟩ := bind_eq_ok.mp h₂
  obtain ⟨page, -, h₄⟩ := bind_eq_ok.mp h₃
  obtain ⟨σ₄, hdec, hret⟩ := bind_eq_ok.mp h₄
  -- up to the loop the table is untouched; then the slot is written twice
  have hsame : SameTable σ σ₂ :=
    (switchAway_table hswitch).trans (foldlM_table (fun _ _ _ => unmapPde_table) hloop)
  have hdecs := pageDecref_table hdec
  obtain rfl := Except.ok.inj hret
  have henvs : σ₄.envs = Function.update σ.envs e { σ.envs e with envPgdir := 0#32 } := by
    rw [hdecs.envs]
    change Function.update σ₂.envs e { σ₂.envs e with envPgdir := 0#32 } = _
    rw [hsame.envs]
  have hefl : σ₄.envFreeList = σ.envFreeList := hdecs.envFreeList.trans hsame.envFreeList
  refine ⟨?_, rfl, ?_⟩
  · change Function.update σ₄.envs e
      { σ₄.envs e with envStatus := .free, envLink := σ₄.envFreeList } = _
    rw [hefl, henvs, Function.update_self, Function.update_idem]
  · intro c
    exact (hdecs.curenv c).trans (hsame.curenv c)

/-! ### `env_alloc` -/

/-- What a successful `env_alloc` does to the table. -/
structure EnvCreated (parentId : Word) (e : Fin nenv) (σ σ' : State) : Prop where
  head : σ.envFreeList = some e
  envs : ∃ pgdir, σ'.envs = Function.update σ.envs e
    (initEnv { σ.envs e with envPgdir := pgdir } e parentId)
  envFreeList : σ'.envFreeList = (σ.envs e).envLink
  curenv : ∀ c, σ'.curenv c = σ.curenv c

theorem envSetupVm_table {r : ℤ} (h : envSetupVm B e σ = .ok (r, σ')) :
    (r = -eNoMem ∧ SameTable σ σ') ∨
    (r = 0 ∧ (∃ pgdir, σ'.envs = Function.update σ.envs e { σ.envs e with envPgdir := pgdir }) ∧
      σ'.envFreeList = σ.envFreeList ∧ ∀ c, σ'.curenv c = σ.curenv c) := by
  obtain ⟨⟨p, σ₁⟩, halloc, h₁⟩ := bind_eq_ok.mp h
  have hsame := pageAlloc_table halloc
  cases p with
  | none =>
    obtain ⟨rfl, rfl⟩ := Prod.mk.inj (Except.ok.inj h₁)
    exact Or.inl ⟨rfl, hsame⟩
  | some p =>
    right
    obtain ⟨pgdir, -, h₂⟩ := bind_eq_ok.mp h₁
    obtain ⟨pa, -, hret⟩ := bind_eq_ok.mp h₂
    obtain ⟨rfl, rfl⟩ := Prod.mk.inj (Except.ok.inj hret)
    refine ⟨rfl, ⟨pgdir, ?_⟩, hsame.envFreeList, hsame.curenv⟩
    change Function.update σ₁.envs e { σ₁.envs e with envPgdir := pgdir } = _
    rw [hsame.envs]

theorem envAlloc_table {parentId : Word} {r : ℤ} {ne : Option (Fin nenv)}
    (h : envAlloc B parentId σ = .ok (r, ne, σ')) :
    (r < 0 ∧ ne = none ∧ SameTable σ σ') ∨
      ∃ e, r = 0 ∧ ne = some e ∧ EnvCreated parentId e σ σ' := by
  unfold envAlloc at h
  split at h
  · obtain ⟨rfl, hrest⟩ := Prod.mk.inj (Except.ok.inj h)
    obtain ⟨rfl, rfl⟩ := Prod.mk.inj hrest
    exact Or.inl ⟨by decide, rfl, SameTable.refl σ⟩
  · next e hhead =>
    obtain ⟨⟨r₁, σ₁⟩, hvm, h₁⟩ := bind_eq_ok.mp h
    obtain ⟨rfl, hsame⟩ | ⟨rfl, ⟨pgdir, henvs⟩, hefl, hcur⟩ := envSetupVm_table hvm
    · -- without a page for the directory the slot stays on the free list
      obtain ⟨rfl, hrest⟩ := Prod.mk.inj (Except.ok.inj h₁)
      obtain ⟨rfl, rfl⟩ := Prod.mk.inj hrest
      exact Or.inl ⟨by decide, rfl, hsame⟩
    · obtain ⟨rfl, hrest⟩ := Prod.mk.inj (Except.ok.inj h₁)
      obtain ⟨rfl, rfl⟩ := Prod.mk.inj hrest
      have hself : σ₁.envs e = { σ.envs e with envPgdir := pgdir } := by
        rw [henvs, Function.update_self]
      refine Or.inr ⟨e, rfl, rfl, hhead, ⟨pgdir, ?_⟩, ?_, hcur⟩
      · change Function.update σ₁.envs e (initEnv (σ₁.envs e) e parentId) = _
        rw [hself, henvs, Function.update_idem]
      · change (Function.update σ₁.envs e (initEnv (σ₁.envs e) e parentId) e).envLink = _
        rw [Function.update_self, hself]
        rfl

/-! ### `env_init` -/

/-- What `env_init` leaves: every slot is free and has no id. -/
structure EnvInited (σ σ' : State) : Prop where
  status : ∀ e, (σ'.envs e).envStatus = .free
  id : ∀ e, (σ'.envs e).envId = 0#32
  pages : σ'.pages = σ.pages
  pageFreeList : σ'.pageFreeList = σ.pageFreeList
  mem : σ'.mem = σ.mem
  cpus : σ'.cpus = σ.cpus

theorem envInitStep_envs (σ : State) (e : Fin nenv) :
    (envInitStep σ e).envs = Function.update σ.envs e
      { σ.envs e with envId := 0#32, envStatus := .free, envLink := σ.envFreeList } := rfl

/-- The loop of `env_init` clears the slots it visits and keeps cleared ones. -/
theorem envInit_loop (l : List (Fin nenv)) (σ : State) :
    let σ' := l.foldl envInitStep σ
    (∀ e, e ∈ l ∨ (σ.envs e).envStatus = .free ∧ (σ.envs e).envId = 0#32 →
      (σ'.envs e).envStatus = .free ∧ (σ'.envs e).envId = 0#32) ∧
    σ'.pages = σ.pages ∧ σ'.pageFreeList = σ.pageFreeList ∧ σ'.mem = σ.mem ∧ σ'.cpus = σ.cpus := by
  induction l generalizing σ with
  | nil => exact ⟨fun e he => he.resolve_left List.not_mem_nil, rfl, rfl, rfl, rfl⟩
  | cons a l ih =>
    obtain ⟨hclear, hpages, hpfl, hmem, hcpus⟩ := ih (envInitStep σ a)
    refine ⟨fun e he => hclear e ?_, hpages, hpfl, hmem, hcpus⟩
    rw [envInitStep_envs]
    by_cases hea : e = a
    · -- visited now, and kept from here on
      right
      rw [hea, Function.update_self]
      exact ⟨rfl, rfl⟩
    · rw [Function.update_of_ne hea]
      exact he.imp_left fun hm => (List.mem_cons.mp hm).resolve_left hea

theorem EnvInited.of_loop {l : List (Fin nenv)} (hall : ∀ e, e ∈ l) (σ : State) :
    EnvInited σ (l.foldl envInitStep σ) := by
  obtain ⟨hclear, hpages, hpfl, hmem, hcpus⟩ := envInit_loop l σ
  exact ⟨fun e => (hclear e (Or.inl (hall e))).1, fun e => (hclear e (Or.inl (hall e))).2,
    hpages, hpfl, hmem, hcpus⟩

/-- `env_init` keeps every `env_pgdir`. -/
theorem envInit_pgdir (σ : State) (e : Fin nenv) :
    ((envInit σ).envs e).envPgdir = (σ.envs e).envPgdir := by
  unfold envInit
  generalize (List.finRange nenv).reverse = l
  induction l generalizing σ with
  | nil => rfl
  | cons a l ih =>
    rw [List.foldl_cons, ih, envInitStep_envs]
    by_cases hea : e = a
    · rw [hea, Function.update_self]
    · rw [Function.update_of_ne hea]

theorem envInit_inited (σ : State) : EnvInited σ (envInit σ) := by
  unfold envInit
  exact EnvInited.of_loop (fun e => List.mem_reverse.mpr (List.mem_finRange e)) σ

end Jos
