import Jos.Memory.LoadReject
import Jos.Memory.TlbExec
import Jos.Memory.TlbLoad
import Jos.Memory.WindowSegment

/-!
# Runs with a TLB

The operations of `kern/pmap.c` and `kern/env.c` on one processor, each taken one access
at a time with the TLB filling up in between, as the labels of a transition relation. The
TLB is coherent whenever one of them returns, after every run from boot on in which
`load_icode` does nothing at or above `UTOP` (`tlb_coherent`). The code does not check that:
what a program has there goes into the page directory of its environment.

What links `cr3` and `curenv` is `RunsOn`: the directory in `cr3` is `kern_pgdir`, or that
of the current environment. The converse does not hold: after `env_free` of the current
environment `curenv` still has it, and its slot may be given to a new environment while
`kern_pgdir` is in `cr3`.
-/

namespace Jos

variable {B : Boot} {σ σ' τ τ' σ₀ : State} {cpu : ℕ} {a : Space} {free : List ℕ}
  {efree : List (Fin nenv)} {e : Fin nenv}

open Interrupted (Triple)

/-- What happens on the processor: the TLB fills up, or the kernel does one thing. -/
inductive TlbOp where
  | idle
  | pageAlloc (flags : Word)
  | pageFree (pp : ℕ)
  | pageInsert (e : Fin nenv) (pp : ℕ) (va perm : Word)
  | pageRemove (e : Fin nenv) (va : Word)
  | envAlloc (parentId : Word)
  | envRun (e : Fin nenv)
  | envFree (e : Fin nenv)
  | envDestroy (e : Fin nenv)
  /-- What it does for the program headers is part of the label. -/
  | loadIcode (e : Fin nenv) (V : Variables) (binary : Word) (actions : List LoadAction)

/-- What the caller of an operation promises. -/
def TlbOp.Promised (B : Boot) (cpu : ℕ) (σ : State) : TlbOp → Prop
  | .idle => True
  | .pageAlloc _ => True
  | .pageFree pp => Allocated B σ pp ∧ refs B σ pp = 0
  | .pageInsert e pp va perm =>
    Live σ e ∧ va < utop ∧ perm.toNat < 4096 ∧ Allocated B σ pp ∧ ¬IsTablePage B σ pp
  | .pageRemove e va => Live σ e ∧ va < utop
  | .envAlloc _ => True
  | .envRun e => Live σ e
  | .envFree e => Live σ e
  | .envDestroy e => Live σ e
  | .loadIcode e _ _ _ => Live σ e ∧ σ.curenv cpu = none

/-- The operation maps and writes nothing at or above `UTOP` for a program. -/
def TlbOp.Below : TlbOp → Prop
  | .loadIcode _ _ _ actions => ∀ x ∈ actions, x.Below
  | _ => True

/-- The outcomes of an operation. -/
def TlbOp.Exec (B : Boot) (cpu : ℕ) (σ : State) : TlbOp → State → Prop
  | .idle, σ' => Relation.ReflTransGen (Fill cpu) σ σ'
  | .pageAlloc flags, σ' => ∃ r, Stepwise.pageAlloc B cpu flags σ r σ'
  | .pageFree pp, σ' => Stepwise.pageFree cpu pp σ () σ'
  | .pageInsert e pp va perm, σ' =>
    ∃ r, Stepwise.pageInsert B cpu (σ.envs e).envPgdir pp va perm σ r σ'
  | .pageRemove e va, σ' => Stepwise.pageRemove B cpu (σ.envs e).envPgdir va σ () σ'
  | .envAlloc parentId, σ' => ∃ r, Stepwise.envAlloc B cpu parentId σ r σ'
  | .envRun e, σ' => Stepwise.envRun cpu e σ () σ'
  | .envFree e, σ' => Stepwise.envFree B cpu e σ () σ'
  | .envDestroy e, σ' => Stepwise.envDestroy B cpu e σ () σ'
  | .loadIcode e V binary actions, σ' => Stepwise.loadIcode B cpu V e binary σ actions σ'

/-- One operation that its caller may do and that returns, with no page at more than
65535 references. -/
structure TlbStep (B : Boot) (cpu : ℕ) (σ : State) (op : TlbOp) (σ' : State) : Prop where
  promised : op.Promised B cpu σ
  exec : op.Exec B cpu σ σ'
  bound : ∀ p, refs B σ' p ≤ 65535

/-! ### The invariant -/

/-- A processor runs on `kern_pgdir`, or on the page directory of its environment. -/
def RunsOn (cpu : ℕ) (a : Space) (τ : State) : Prop :=
  ∀ c, a = some c → Live τ c ∧ τ.curenv cpu = some c

namespace RunsOn

theorem kern : RunsOn cpu none τ := fun c hc => by cases hc

theorem of_sameTable (h : RunsOn cpu a τ) (hs : SameTable τ τ') : RunsOn cpu a τ' := by
  intro c hc
  obtain ⟨hlive, hcur⟩ := h c hc
  exact ⟨by rw [Live, hs.envs]; exact hlive, (hs.curenv cpu).trans hcur⟩

/-- The page directory in `cr3` is the one whose entries `tlb_invalidate` drops. -/
theorem flushes (h : RunsOn cpu a τ) (ha : a = some e) : Flushes cpu (τ.envs e).envPgdir τ := by
  intro c hc
  obtain rfl := Option.some.inj ((h e ha).2.symm.trans hc)
  rfl

/-- Another environment is freed or marked. -/
theorem away {s : EnvStatus} (h : RunsOn cpu a τ) {cur : ℕ → Option (Fin nenv)}
    (ht : Turn τ' (Function.update τ.status e s) cur)
    (hcur : τ.curenv cpu ≠ some e → cur cpu = τ.curenv cpu) :
    RunsOn cpu (Stepwise.awayFrom cpu e τ a) τ' := by
  intro c hc
  unfold Stepwise.awayFrom at hc
  split at hc
  · cases hc
  · next hne =>
    obtain ⟨hlive, hc'⟩ := h c hc
    have hce : c ≠ e := by
      rintro rfl
      exact hne hc'
    have hstatus : τ'.status c = τ.status c := by rw [ht.status, Function.update_of_ne hce]
    refine ⟨fun hf => hlive (hstatus.symm.trans hf), ?_⟩
    rw [ht.cur, hcur hne, hc']

end RunsOn

/-- The invariant of all runs, when an operation returns. -/
def TlbInv (B : Boot) (cpu : ℕ) (σ : State) : Prop :=
  ∃ a τ free efree, TableInv B τ free efree ∧ RunsOn cpu a τ ∧ At B cpu a ∅ τ σ

/-- An operation that does nothing to the table of environments. -/
theorem TlbInv.of_steady {α : Type} {x : Kernel α} {r : α} {R : α → State → Prop} (op : MemOp)
    (ht : TableInv B τ free efree) (hon : RunsOn cpu a τ) (hat : At B cpu a ∅ τ σ)
    (hx : Steady B cpu a ∅ ∅ τ x R) (hrun : x σ r σ') (hsame : ∀ τ', R r τ' → SameTable τ τ')
    (hexec : ∀ τ', R r τ' → op.exec B τ = .ok τ') (hal : op.Allowed B τ) (hon' : op.OnUser)
    (hbound : ∀ p, refs B σ' p ≤ 65535) : TlbInv B cpu σ' := by
  obtain ⟨τ', hR, hat'⟩ := hx σ r σ' hat hrun
  have hbound' : ∀ p, refs B τ' p ≤ 65535 := by
    rw [← hat'.hidden]
    exact hbound
  obtain ⟨free', efree', ht'⟩ := ht.userStep ⟨⟨hal, hexec τ' hR, hbound'⟩, hon'⟩
  exact ⟨a, τ', free', efree', ht', hon.of_sameTable (hsame τ' hR), hat'⟩

theorem TlbInv.envAlloc {parentId : Word} {r : ℤ × Option (Fin nenv)}
    (ht : TableInv B τ free efree) (hon : RunsOn cpu a τ) (hat : At B cpu a ∅ τ σ)
    (hrun : Stepwise.envAlloc B cpu parentId σ r σ') : TlbInv B cpu σ' := by
  obtain ⟨τ', hpure, hat'⟩ := Stepwise.steady_envAlloc ht.page ht.env
    (fun c hc => (hon c hc).1) parentId σ r σ' hat hrun
  obtain ⟨free', efree', ht'⟩ := ht.envAlloc hpure
  refine ⟨a, τ', free', efree', ht', ?_, hat'⟩
  obtain ⟨-, -, hsame⟩ | ⟨e, -, -, hnew⟩ := envAlloc_table hpure
  · exact hon.of_sameTable hsame
  · intro c hc
    obtain ⟨hlive, hcur⟩ := hon c hc
    refine ⟨?_, (hnew.curenv cpu).trans hcur⟩
    obtain ⟨pgdir, henvs⟩ := hnew.envs
    rw [Live, henvs]
    by_cases hce : c = e
    · rw [hce, Function.update_self]
      simp [initEnv]
    · rw [Function.update_of_ne hce]
      exact hlive

theorem TlbInv.envRun (ht : TableInv B τ free efree) (hat : At B cpu a ∅ τ σ) (he : Live τ e)
    (hrun : Stepwise.envRun cpu e σ () σ') : TlbInv B cpu σ' := by
  obtain ⟨τ', hpure, hat'⟩ := Stepwise.envRun_at ht.toMemInv he σ () σ' hat hrun
  obtain ⟨τ₁, hpure', hsame⟩ := ht.toMemInv.envRun he cpu
  obtain rfl := ok_unique hpure' hpure
  refine ⟨some e, τ₁, free, efree, ht.of_sameSpaces hsame, ?_, hat'⟩
  intro c hc
  obtain rfl := Option.some.inj hc
  refine ⟨hsame.live_iff.mpr he, ?_⟩
  rw [(envRun_turn hpure).cur, Function.update_self]

theorem TlbInv.envFree (ht : TableInv B τ free efree) (hon : RunsOn cpu a τ)
    (hat : At B cpu a ∅ τ σ) (he : Live τ e) (hrun : Stepwise.envFree B cpu e σ () σ') :
    TlbInv B cpu σ' := by
  obtain ⟨τ', hpure, hat'⟩ :=
    Stepwise.envFree_at ht.toMemInv he (fun hc => (hon e hc).2) σ () σ' hat hrun
  obtain ⟨free', ht'⟩ := ht.envFree he hpure
  exact ⟨_, τ', free', _, ht', hon.away (envFree_turn hpure) fun _ => rfl, hat'⟩

theorem TlbInv.envDestroy (ht : TableInv B τ free efree) (hon : RunsOn cpu a τ)
    (hat : At B cpu a ∅ τ σ) (he : Live τ e) (hrun : Stepwise.envDestroy B cpu e σ () σ') :
    TlbInv B cpu σ' := by
  obtain ⟨τ', hpure, hat'⟩ :=
    Stepwise.envDestroy_at ht.toMemInv he (fun hc => (hon e hc).2) σ () σ' hat hrun
  obtain ⟨free', efree', ht'⟩ := ht.envDestroy he hpure
  refine ⟨_, τ', free', efree', ht', ?_, hat'⟩
  obtain ⟨-, -, hturn⟩ | ⟨hown, hturn⟩ | ⟨-, -, hturn⟩ := envDestroy_turn hpure
  · exact hon.away hturn fun _ => rfl
  · exact hon.away hturn fun hne => absurd hown hne
  · exact hon.away hturn fun _ => rfl

/-- Every step keeps the invariant, if it is below `UTOP`. -/
theorem TlbInv.step {op : TlbOp} (h : TlbInv B cpu σ) (hs : TlbStep B cpu σ op σ')
    (hbelow : op.Below) : TlbInv B cpu σ' := by
  obtain ⟨a, τ, free, efree, ht, hon, hat⟩ := h
  obtain ⟨hal, hexec, hbound⟩ := hs
  -- what the caller promises does not concern the TLB
  have hτ : hideTlb cpu σ = τ := hat.hidden
  cases op with
  | idle => exact ⟨a, τ, free, efree, ht, hon, hat.fills hexec⟩
  | pageAlloc flags =>
    obtain ⟨r, hrun⟩ := hexec
    exact TlbInv.of_steady (.pageAlloc flags) ht hon hat
      (Stepwise.steady_pageAlloc ht.page flags) hrun (fun _ hr => pageAlloc_table hr)
      (fun τ' hr => map_eq_ok.mpr ⟨_, hr, rfl⟩) trivial trivial hbound
  | pageFree pp =>
    subst hτ
    exact TlbInv.of_steady (.pageFree pp) ht hon hat (Stepwise.steady_pageFree pp) hexec
      (fun _ hr => pageFree_table hr) (fun _ hr => hr) hal trivial hbound
  | pageInsert e pp va perm =>
    subst hτ
    obtain ⟨r, hrun⟩ := hexec
    obtain ⟨he, hva, hperm, hpp, htab⟩ := hal
    have hfree : pp ∉ free := fun hc => hpp.2 ((ht.page.onFreeList_iff pp).mpr hc)
    exact TlbInv.of_steady (.pageInsert cpu e pp va perm) ht hon hat
      (Stepwise.steady_pageInsert ht.page (ht.env.dirFrame_live he) ((lt_utop_iff va).mp hva)
        hpp.1 hfree ht.bound_held fun ha => hon.flushes ha) hrun (fun _ hr => pageInsert_table hr)
      (fun τ' hr => map_eq_ok.mpr ⟨_, hr, rfl⟩) ⟨he, hva, hperm, hpp, htab⟩ trivial hbound
  | pageRemove e va =>
    subst hτ
    obtain ⟨he, hva⟩ := hal
    exact TlbInv.of_steady (.pageRemove cpu e va) ht hon hat
      (Stepwise.steady_pageRemove ht.page (ht.env.dirFrame_live he) ((lt_utop_iff va).mp hva)
        fun ha => hon.flushes ha) hexec (fun _ hr => pageRemove_table hr) (fun _ hr => hr) ⟨he, hva⟩
      trivial hbound
  | envAlloc parentId =>
    obtain ⟨r, hrun⟩ := hexec
    exact TlbInv.envAlloc ht hon hat hrun
  | envRun e =>
    subst hτ
    exact TlbInv.envRun ht hat hal hexec
  | envFree e =>
    subst hτ
    exact TlbInv.envFree ht hon hat hal hexec
  | envDestroy e =>
    subst hτ
    exact TlbInv.envDestroy ht hon hat hal hexec
  | loadIcode e V binary actions =>
    subst hτ
    obtain ⟨he, hidle⟩ := hal
    have hload : Loading B cpu e (hideTlb cpu σ) :=
      ⟨⟨free, efree, ht⟩, he, by rw [hideTlb, setTlb_curenv, hidle]⟩
    obtain ⟨τ', hload', hat'⟩ := Stepwise.loadIcode_at V binary hload hat hexec hbelow
    obtain ⟨free', efree', ht'⟩ := hload'.table
    exact ⟨none, τ', free', efree', ht', .kern, hat'⟩

/-! ### From boot on -/

/-- What the TLB has cached for pages below `UTOP`: the entries of the page directory in
`cr3`, and so no page that has been freed. -/
structure TlbSound (cpu : ℕ) (σ : State) : Prop where
  coherent : TlbCoherent cpu σ
  unfreed : ∀ t ∈ (σ.cpus cpu).tlb, UserPage t.1 → ¬OnFreeList σ (pgnum (pteAddr t.2))

theorem TlbInv.sound (h : TlbInv B cpu σ) : TlbSound cpu σ := by
  obtain ⟨a, τ, free, efree, ht, -, hat⟩ := h
  refine ⟨hat.tlbCoherent, fun t hmem hn => ?_⟩
  -- the entry is that of a slot, and nothing on the free list is referred to by a slot
  have hview := hat.coherent t hmem ⟨hn, Set.notMem_empty _⟩
  obtain ⟨u, hu, hw⟩ := Option.map_eq_some_iff.mp hview
  have hframe : pgnum (pteAddr (pteWord u)) = u.1 :=
    (entryOf_eq_some.mp (show _ = some (u.1, u.2) from entryOf_pteWord hu)).2.1
  have href : slotRef B τ (pageSlot a t.1) = some u.1 := by
    rw [slotRef, hu]
    rfl
  rw [← hw, hframe]
  intro hfree
  have hτ := hat.hidden
  subst hτ
  exact ht.page.notMem_of_slot href ((ht.page.onFreeList_iff _).mp hfree)

/-- `env_init` does not look at `cr3`. -/
theorem envInit_lcr3 (cpu : ℕ) (pa : Word) (σ : State) :
    envInit (lcr3 cpu pa σ) = lcr3 cpu pa (envInit σ) := by
  have hloop : ∀ (l : List (Fin nenv)) (σ : State),
      l.foldl envInitStep (lcr3 cpu pa σ) = lcr3 cpu pa (l.foldl envInitStep σ) := by
    intro l
    induction l with
    | nil => exact fun _ => rfl
    | cons i l ih => exact fun σ => ih (envInitStep σ i)
  unfold envInit
  exact hloop _ σ

/-- With `kern_pgdir` in `cr3` and nothing cached the invariant holds. -/
theorem TableInv.tlbInv {pa : Word} (ht : TableInv B τ free efree)
    (hpa : paddr B.kernPgdir = .ok pa) : TlbInv B cpu (lcr3 cpu pa τ) := by
  obtain ⟨-, rfl⟩ := paddr_eq_ok.mp hpa
  have hat : At B cpu none ∅ _ (lcr3 cpu (B.kernPgdir - kernbase) τ) :=
    at_lcr3 rfl (dirFrame_kern B _)
  exact ⟨none, _, free, efree, ht.of_sameSpaces (.cpus rfl), .kern, hat⟩

/-- `mem_init` puts `kern_pgdir` into `cr3`, and `env_init` follows. -/
theorem MemInited.tlbInv (h₀ : Booted B σ₀) (h : MemInited B σ₀ σ) {pa : Word}
    (hpa : paddr B.kernPgdir = .ok pa) : TlbInv B cpu (envInit (lcr3 cpu pa σ)) := by
  obtain ⟨free, ht⟩ := h.tableInv h₀
  rw [envInit_lcr3]
  exact ht.tlbInv hpa

/-- From boot on, in every interleaving of the operations with the TLB filling up, the TLB
is right about the pages below `UTOP` whenever an operation returns, as long as no program is
loaded at or above `UTOP`. -/
theorem tlb_coherent (h₀ : Booted B σ₀) (hinit : MemInited B σ₀ σ) {pa : Word}
    (hpa : paddr B.kernPgdir = .ok pa) {ops : List TlbOp}
    (hrun : Run (TlbStep B cpu) (envInit (lcr3 cpu pa σ)) ops σ')
    (hbelow : ∀ op ∈ ops, op.Below) : TlbSound cpu σ' := by
  have hmeets : Run.Meets (TlbStep B cpu) (envInit (lcr3 cpu pa σ)) ops fun _ op => op.Below := by
    rintro ops₁ op ops₂ σ₁ rfl -
    exact hbelow op (by simp)
  have hstep : ∀ τ op τ', TlbInv B cpu τ → TlbStep B cpu τ op τ' → op.Below → TlbInv B cpu τ' :=
    fun _ _ _ hinv hstep hb => hinv.step hstep hb
  have hinv : TlbInv B cpu σ' := hrun.invariant_of_meets hstep (hinit.tlbInv h₀ hpa) hmeets
  exact hinv.sound

/-- With `kern_pgdir` in `cr3` and nothing cached there is nothing to hide. -/
theorem hideTlb_lcr3_self (cpu : ℕ) (pa : Word) (τ : State) :
    hideTlb cpu (lcr3 cpu pa τ) = lcr3 cpu pa τ := setTlb_self (by rw [lcr3, setCpu_cpus])

/-- An environment is made, a program is loaded into it and it runs, whatever the TLB does
meanwhile. -/
theorem firstProgram_run {V : Variables} {binary : Word} {as : List LoadAction} {τ₁ τ₂ : State}
    (hV : V.Untouched cpu) (halloc : envAlloc B 0#32 (hideTlb cpu σ) = .ok (0, some e, τ₁))
    (hlive₁ : Live τ₁ e) (hbound₁ : ∀ p, refs B τ₁ p ≤ 65535) (hcur : τ₁.curenv cpu = none)
    (hload : loadIcode V B cpu e binary τ₁ = ⟨as, .ok τ₂⟩) (hlive₂ : Live τ₂ e)
    (hbound₂ : ∀ p, refs B τ₂ p ≤ 65535) (hhigh : kernbase ≤ (τ₂.envs e).envPgdir) :
    ∃ σ', Run (TlbStep B cpu) σ [.envAlloc 0#32, .loadIcode e V binary as, .envRun e] σ' ∧
      σ'.curenv cpu = some e := by
  obtain ⟨σ₁, hrun₁, rfl⟩ := (Stepwise.computes_envAlloc 0#32).complete
    (map_eq_ok.mpr ⟨_, halloc, rfl⟩)
  obtain ⟨σ₂, hrun₂, rfl⟩ := Stepwise.loadIcode_exec hV hload
  obtain ⟨τ₃, henvRun, hsame, -⟩ := hlive₂.envRun hhigh cpu
  obtain ⟨σ₃, hrun₃, rfl⟩ := (Stepwise.computes_envRun e).complete (done_eq_ok.mpr henvRun)
  have hbound₃ (p : ℕ) : refs B σ₃ p ≤ 65535 := by
    have heq : refs B (hideTlb cpu σ₃) p = refs B (hideTlb cpu σ₂) p :=
      refs_eq_of_slots hsame.slots p
    exact heq.trans_le (hbound₂ p)
  rw [hideTlb, setTlb_curenv] at hcur
  refine ⟨σ₃, .cons ⟨trivial, ⟨_, hrun₁⟩, hbound₁⟩ (.cons ⟨⟨hlive₁, hcur⟩, hrun₂, hbound₂⟩
    (.cons ⟨hlive₂, hrun₃, hbound₃⟩ .nil)), ?_⟩
  rw [← setTlb_curenv σ₃ cpu [], ← hideTlb, (envRun_turn henvRun).cur, Function.update_self]

/-- The first environment of the small machine gets a program of one page and runs. -/
theorem tlb_coherent_smallMachine : ∃ σ pa σ', MemInited smallMachine smallMemory σ ∧
    paddr smallMachine.kernPgdir = .ok pa ∧
    Run (TlbStep smallMachine 0) (envInit (lcr3 0 pa σ)) [.envAlloc 0#32,
      .loadIcode 0 (imageVariables (segmentImage 0x1000#32)) 0xF0108000#32 onePageActions,
      .envRun 0] σ' ∧
    σ'.curenv 0 = some 0 ∧ TlbSound 0 σ' := by
  obtain ⟨σ, τ₁, O, efree, free, hinit, hupper, halloc, -, hload₁, hlen, hcr3, hnone, hcur⟩ :=
    smallMachine_envAlloc
  obtain ⟨τ₂, free', M, hrun, hload₂⟩ :=
    onePage_loaded hupper halloc hload₁ (by rw [hlen]; decide) hcr3 hnone
  have hpa := paddr_eq_ok.mpr ⟨kernbase_le_kernPgdir smallMachine, rfl⟩
  rw [onKernPgdir, ← hideTlb_lcr3_self, ← envInit_lcr3] at halloc
  obtain ⟨σ', hsteps, hcur'⟩ := firstProgram_run (fun _ => rfl) halloc hload₁.live hload₁.bound
    (hcur 0) hrun hload₂.live hload₂.bound (hload₂.env.pgdir 0 hload₂.live)
  have hbelow : ∀ op ∈ [TlbOp.envAlloc 0#32, .loadIcode 0 (imageVariables (segmentImage 0x1000#32))
      0xF0108000#32 onePageActions, .envRun 0], op.Below := by
    simp only [List.forall_mem_cons, List.not_mem_nil, false_imp_iff, implies_true, and_true]
    exact ⟨trivial, onePage_below, trivial⟩
  exact ⟨σ, _, σ', hinit, hpa, hsteps, hcur',
    tlb_coherent smallMemory_booted hinit hpa hsteps hbelow⟩

/-- From `mem_init` on, with the stale words in the second free page: an environment is made, and a
segment in the window of `UVPT` is loaded into it. -/
theorem windowLoad_run {d p q t : ℕ} {rest : List (Fin nenv)}
    (h : MemInv smallMachine (hideTlb 0 σ) (d :: p :: q :: free) (0 :: rest))
    (hw : Window smallMachine (hideTlb 0 σ) t) (hrefs : ∀ r, refs smallMachine (hideTlb 0 σ) r ≤ 1)
    (hcur : σ.curenv 0 = none) (hcr3 : pgnum (σ.cpus 0).cr3 = smallMachine.kernFrame)
    (hstale : σ.mem p = staleWord) :
    ∃ σ', Run (TlbStep smallMachine 0) σ [.envAlloc 0#32, .loadIcode 0
        (imageVariables (emptyImage windowVa)) 0xF0108000#32 (emptyActions windowVa)] σ' ∧
      Live σ' 0 ∧ kernbase ≤ (σ'.envs 0).envPgdir ∧ Chain σ'.link σ'.pageFreeList free ∧
      entryOf (σ'.mem (frameAt (σ'.envs 0).envPgdir) (pdx (ustacktop - pgsize))) = some (p, 7#12) ∧
      (∀ i : Fin 1024, i.val < 160 → σ'.mem p i = staleWord i) ∧
      ∀ r, refs smallMachine σ' r ≤ 65535 := by
  obtain ⟨τ₁, halloc, hinv₁, hal⟩ := h.envAlloc_succeeds (by decide) 0#32
  obtain ⟨σ₁, hrun₁, hhide₁⟩ := (Stepwise.computes_envAlloc 0#32).complete
    (map_eq_ok.mpr ⟨_, halloc, rfl⟩)
  have hload := LoadInv.of_envAllocated h hinv₁ hal
  have hw₁ := hw.of_envAllocated h List.mem_cons_self hal
  have hpd : p ≠ d := by
    rintro rfl
    exact (List.nodup_cons.mp h.page.chain.nodup).1 List.mem_cons_self
  have hstale₁ : τ₁.mem p = staleWord := (hal.other p hpd).trans hstale
  have hread : entryOf (τ₁.mem (pgnum (τ₁.cpus 0).cr3) 960) = none := by
    rw [envAlloc_cpus halloc, hideTlb_cr3, hcr3]
    exact hw₁.nothing 960 (by decide) (by decide)
  have hnone : entryOf (τ₁.mem p (ptx (ustacktop - pgsize))) = none := by
    rw [hstale₁, entryOf_staleWord, if_neg (by decide)]
  have himage : EmptySegment (emptyImage windowVa) windowVa :=
    ⟨by decide, by decide, by decide⟩
  obtain ⟨τ₂, hpure, hloaded⟩ := hload.loadIcode_window 0 hw₁ himage hread hnone
  -- both can happen whatever the TLB does meanwhile
  obtain rfl : hideTlb 0 σ₁ = τ₁ := hhide₁
  obtain ⟨σ₂, hrun₂, rfl⟩ := Stepwise.loadIcode_exec (fun _ => rfl) hpure
  have hrefs₁ (r : ℕ) : refs smallMachine (hideTlb 0 σ₁) r ≤ 2 := by
    rw [refs, slotRef_update hal.slots]
    refine (refCount_update_le _ _ d r).trans ?_
    have hone := hrefs r
    unfold refs at hone
    split <;> omega
  have hbound (r : ℕ) : refs smallMachine σ₂ r ≤ 65535 := by
    have hle := hloaded.refs_le hload.page hload.dir r
    exact hle.trans ((Nat.add_le_add_right (hrefs₁ r) 1025).trans (by decide))
  have hcur₁ : σ₁.curenv 0 = none := by
    rw [← setTlb_curenv σ₁ 0 [], ← hideTlb, hal.curenv, hideTlb, setTlb_curenv, hcur]
  refine ⟨σ₂, .cons ⟨trivial, ⟨_, hrun₁⟩, hinv₁.bound⟩
    (.cons ⟨⟨hal.live, hcur₁⟩, hrun₂, hbound⟩ .nil), hloaded.live, ?_, hloaded.chain, ?_,
    fun i hi => ?_, hbound⟩
  · exact hloaded.pgdir ▸ hload.env.pgdir 0 hload.live
  · have hpgdir : (σ₂.envs 0).envPgdir = ((hideTlb 0 σ₁).envs 0).envPgdir := hloaded.pgdir
    rw [hpgdir]
    exact hloaded.dir
  · have hne : i ≠ ptx (ustacktop - pgsize) := by
      rintro rfl
      exact absurd hi (by decide)
    have htable : σ₂.mem p = Function.update ((hideTlb 0 σ₁).mem p) _ _ := hloaded.table
    rw [htable, Function.update_of_ne hne, hstale₁]

/-- The environment runs, and the TLB caches one of its pages. -/
theorem envRun_fill (cpu : ℕ) {n p : ℕ} {pte : Word} (hlive : Live σ e)
    (hhigh : kernbase ≤ (σ.envs e).envPgdir) (hbound : ∀ r, refs B σ r ≤ 65535) (hn : n < 2 ^ 20)
    (hwalk : walkPte σ (frameAt (σ.envs e).envPgdir) n = some pte) :
    ∃ σ', Run (TlbStep B cpu) σ [.envRun e, .idle] σ' ∧ (n, pte) ∈ (σ'.cpus cpu).tlb ∧
      (OnFreeList σ p → OnFreeList σ' p) := by
  obtain ⟨τ, hpure, hsame, hcr3⟩ :=
    Live.envRun (σ := hideTlb cpu σ) (e := e) hlive hhigh cpu
  obtain ⟨σ₁, hrun, rfl⟩ := (Stepwise.computes_envRun e).complete (done_eq_ok.mpr hpure)
  have hspaces : SameSpaces σ σ₁ := by
    have hfirst : SameSpaces σ (hideTlb cpu σ) := .cpus rfl
    have hlast : SameSpaces (hideTlb cpu σ₁) σ₁ := .cpus rfl
    exact (hfirst.trans hsame).trans hlast
  have hrefs (r : ℕ) : refs B σ₁ r ≤ 65535 := by
    rw [refs_eq_of_slots hspaces.slots]
    exact hbound r
  have hfill : Fill cpu σ₁ (σ₁.setTlb cpu ((n, pte) :: (σ₁.cpus cpu).tlb)) := by
    refine ⟨n, pte, hn, ?_, rfl⟩
    rw [← hideTlb_cr3, hcr3, walkPte, hspaces.mem]
    exact hwalk
  have hcached : SameSpaces σ₁ (σ₁.setTlb cpu ((n, pte) :: (σ₁.cpus cpu).tlb)) := .cpus rfl
  have hrefs' (r : ℕ) : refs B (σ₁.setTlb cpu ((n, pte) :: (σ₁.cpus cpu).tlb)) r ≤ 65535 := by
    rw [refs_eq_of_slots hcached.slots]
    exact hrefs r
  refine ⟨_, .cons ⟨hlive, hrun, hrefs⟩ (.cons ⟨trivial, .single hfill, hrefs'⟩ .nil), ?_, ?_⟩
  · rw [setTlb_tlb]
    exact List.mem_cons_self
  · rintro ⟨l, hl, hp⟩
    have hpages := (hspaces.trans hcached).pages
    refine ⟨l, ?_, hp⟩
    unfold State.link
    rw [hpages, (hspaces.trans hcached).pageFreeList]
    exact hl

/-- With a stale entry for a free page in the second free page, the environment can read and write
that page, and the TLB caches it. -/
theorem windowRun_caches {d p q t j : ℕ} {rest : List (Fin nenv)}
    (hinv : MemInv smallMachine τ (d :: p :: q :: free) (0 :: rest)) (hw : Window smallMachine τ t)
    (hrefs : ∀ r, refs smallMachine τ r ≤ 1) (hcur : ∀ c, τ.curenv c = none)
    (hstale : τ.mem p = staleWord) (hj : j ∈ free) (hlt : j < 160) :
    ∃ σ', Run (TlbStep smallMachine 0) (lcr3 0 (smallMachine.kernPgdir - kernbase) τ)
        [.envAlloc 0#32, .loadIcode 0 (imageVariables (emptyImage windowVa)) 0xF0108000#32
          (emptyActions windowVa), .envRun 0, .idle] σ' ∧
      ∃ x ∈ (σ'.cpus 0).tlb, UserPage x.1 ∧ OnFreeList σ' (pgnum (pteAddr x.2)) := by
  set σ₀ := lcr3 0 (smallMachine.kernPgdir - kernbase) τ with hσ₀
  have hsame : SameSpaces τ (hideTlb 0 σ₀) := .cpus rfl
  have hw₀ : Window smallMachine (hideTlb 0 σ₀) t :=
    ⟨hw.table, hw.nothing, hw.entry, hw.copy, hw.own⟩
  have hrefs₀ (r : ℕ) : refs smallMachine (hideTlb 0 σ₀) r ≤ 1 := by
    rw [refs_eq_of_slots hsame.slots]
    exact hrefs r
  have hcr3 : pgnum (σ₀.cpus 0).cr3 = smallMachine.kernFrame := by
    rw [hσ₀, lcr3, setCpu_cpus]
    rfl
  obtain ⟨σ₁, hrun₁, hlive, hhigh, hchain, hdir, hword, hbound⟩ := windowLoad_run
    (hsame.memInv hinv) hw₀ hrefs₀ (((lcr3_table 0 _ _).curenv 0).trans (hcur 0)) hcr3 hstale
  -- word `j` of the new page table is the entry of page `j`
  set k : Fin 1024 := ⟨j, by omega⟩ with hk
  have hentry : entryOf (staleWord k) = some (j, 7#12) := by rw [entryOf_staleWord, if_pos hlt]
  obtain ⟨hpresent, hframe, -⟩ := entryOf_eq_some.mp hentry
  have hindex : (pdx (ustacktop - pgsize)).val = 954 := by decide
  have hdirIndex : Fin.ofNat 1024 ((954 * 1024 + j) / 1024) = pdx (ustacktop - pgsize) := by
    apply Fin.ext
    rw [hindex, Fin.val_ofNat]
    omega
  have htableIndex : Fin.ofNat 1024 (954 * 1024 + j) = k := by
    apply Fin.ext
    rw [Fin.val_ofNat]
    change (954 * 1024 + j) % 1024 = j
    omega
  have hwalk : walkPte σ₁ (frameAt (σ₁.envs 0).envPgdir) (954 * 1024 + j) =
      some (staleWord k) := by
    rw [walkPte, hdirIndex, hdir, Option.bind_some, htableIndex, hword k hlt]
    exact if_pos hpresent
  obtain ⟨σ', hrun₂, hmem, hfree⟩ := envRun_fill 0 (p := j) hlive hhigh hbound (by omega)
    hwalk
  refine ⟨σ', Run.append_iff.mpr ⟨σ₁, hrun₁, hrun₂⟩, _, hmem, ?_, ?_⟩
  · rw [userPage_iff]
    omega
  · rw [hframe]
    exact hfree ⟨free, hchain, hj⟩

/-- A segment without a byte in the window of `UVPT`, when memory looks like page tables. -/
theorem tlb_stale : ∃ σ pa σ', Booted smallMachine staleMemory ∧
    MemInited smallMachine staleMemory σ ∧ paddr smallMachine.kernPgdir = .ok pa ∧
    Run (TlbStep smallMachine 0) (envInit (lcr3 0 pa σ)) [.envAlloc 0#32,
      .loadIcode 0 (imageVariables (emptyImage windowVa)) 0xF0108000#32 (emptyActions windowVa),
      .envRun 0, .idle] σ' ∧
    (∃ x ∈ (σ'.cpus 0).tlb, UserPage x.1 ∧ OnFreeList σ' (pgnum (pteAddr x.2))) ∧
    ¬TlbSound 0 σ' := by
  obtain ⟨σ, t, d, p, q, free, rest, j, hinit, hinv, hw, hrefs, hcur, hstale, hj, hlt⟩ :=
    staleMachine_ready
  obtain ⟨σ', hrun, x, hx, huser, hfree⟩ :=
    windowRun_caches hinv hw hrefs hcur hstale hj hlt
  rw [← envInit_lcr3] at hrun
  exact ⟨σ, _, σ', staleMemory_booted, hinit,
    paddr_eq_ok.mpr ⟨kernbase_le_kernPgdir smallMachine, rfl⟩, hrun, ⟨x, hx, huser, hfree⟩,
    fun hsound => hsound.unfreed x hx huser hfree⟩

end Jos
