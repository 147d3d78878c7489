import Jos.Environment.Table
import Jos.Memory.Tlb

/-!
# The TLB while environments come and go

The operations of `kern/env.c`, with the TLB at work. They change what is in `cr3`, so
`cr3` and `curenv` are out of step for a while:

* `env_free` of the current environment first switches to `kern_pgdir`. From then on the
  space that is torn down is not the one in `cr3`, and it does not matter that
  `tlb_invalidate` still finds it in `curenv`.
* `load_icode` runs on the page directory of an environment that is not the current one.
  There is no current one, so `tlb_invalidate` skips nothing.
-/

namespace Jos

variable {B : Boot} {σ σ' τ τ' : State} {cpu : ℕ} {a b : Space} {free : List ℕ} {held : ℕ → ℕ}
  {efree : List (Fin nenv)} {e : Fin nenv} {X : Set Slot}

open Interrupted (Triple)

/-- Loading the directory of a space into `cr3`. -/
theorem at_lcr3 {pa : Word} (h : hideTlb cpu σ = τ) (hd : dirFrame B τ b = some (pgnum pa)) :
    At B cpu b ∅ (lcr3 cpu pa τ) (lcr3 cpu pa σ) where
  hidden := by rw [← Stepwise.hideTlb_lcr3, h]
  dir := by
    rw [(lcr3_keeps cpu pa τ).1.dirFrame, hd, lcr3, setCpu_cpus]
  coherent := by
    have htlb : ((lcr3 cpu pa σ).cpus cpu).tlb = [] := by rw [lcr3, setCpu_cpus]
    rw [htlb]
    exact .nil

/-- Writing the slot of another environment in the table. -/
theorem Effect.setEnv {v : Env} (ha : a ≠ some e) : Effect B cpu a X X τ (τ.setEnv e v) :=
  .of_slots rfl (dirFrame_setEnv_of_ne ha v) fun _ _ => slots_setEnv_of_ne v ha

/-- Writing it together with `env_free_list`. -/
theorem Effect.setFree {v : Env} {l : Option (Fin nenv)} (ha : a ≠ some e) :
    Effect B cpu a X X τ { τ.setEnv e v with envFreeList := l } :=
  .of_slots rfl (dirFrame_setEnv_of_ne ha v) fun i j =>
    slots_setEnv_of_ne (s := .pte a i j) v ha

/-- A step that changes no space. -/
theorem Effect.of_sameSpaces (h : SameSpaces τ τ') (hcr3 : (τ'.cpus cpu).cr3 = (τ.cpus cpu).cr3)
    (htlb : (τ'.cpus cpu).tlb = (τ.cpus cpu).tlb) : Effect B cpu a X X τ τ' :=
  ⟨hcr3, htlb, h.dirFrame a, subset_rfl, fun _ _ _ _ hu => by rw [h.slots, hu]⟩

theorem dirFrame_kern (B : Boot) (τ : State) :
    dirFrame B τ none = some (pgnum (B.kernPgdir - kernbase)) := rfl

namespace Stepwise

/-- Once it has loaded `cr3` the kernel runs on another directory. -/
theorem lcr3_at {pa : Word} {u : Unit} (hd : dirFrame B τ b = some (pgnum pa))
    (hat : At B cpu a X τ σ) (hrun : lcr3 cpu pa σ u σ') : At B cpu b ∅ (Jos.lcr3 cpu pa τ) σ' := by
  obtain ⟨σ₁, hfill, hrun⟩ := hrun
  obtain rfl := Except.ok.inj (done_eq_ok.mp hrun)
  exact at_lcr3 (hat.fills hfill).hidden hd

/-- The kernel goes on with another directory in `cr3`. -/
theorem lcr3_bind {α : Type} {pa : Word} {k : Kernel α} {Q : α → State → Prop}
    (hd : dirFrame B τ b = some (pgnum pa))
    (hk : Triple (At B cpu b ∅ (Jos.lcr3 cpu pa τ)) k Q) :
    Triple (At B cpu a X τ) (lcr3 cpu pa >>= fun _ => k) Q := by
  refine Triple.bind (R := fun _ σ => At B cpu b ∅ (Jos.lcr3 cpu pa τ) σ) ?_ fun _ => hk
  exact fun σ u σ' hat hrun => lcr3_at hd hat hrun

/-! ### `env_free` -/

section Teardown

variable {pgdir : Word} {i : Fin 1024}

theorem steady_unmapPte (h : PageInv B τ held free) (hab : a ≠ b)
    (hd : dirFrame B τ b = some (frameAt pgdir)) (hi : i.val < 955) (pt : Word) (j : Fin 1024) :
    Steady B cpu a X X τ (unmapPte B cpu pgdir pt i j) fun _ τ' =>
      Jos.unmapPte B cpu pgdir pt i τ j = .ok τ' := by
  refine (Steady.computes (R := fun _ _ => True) ?_ (computes_unmapPte pgdir pt i j)).weaken
    fun _ _ hr => done_eq_ok.mp hr
  refine (steady_load _).bind fun w τ₁ hload => ?_
  obtain ⟨rfl, rfl⟩ := hload
  refine .ite (fun _ => ?_) fun _ => (Steady.pure ()).forget
  refine (steady_pageRemove h hd ?_ fun hc => absurd hc hab).forget
  rw [pdx_pgaddr]
  exact hi

/-- What the inner loop needs of every state it comes through. -/
structure Teardown (B : Boot) (b : Space) (pgdir : Word) (τ : State) : Prop where
  page : ∃ free, PageInv B τ 0 free
  dir : dirFrame B τ b = some (frameAt pgdir)
  bound : ∀ p, refs B τ p + (0 : ℕ → ℕ) p ≤ 65535

theorem Teardown.clears {C : Set Slot} {free' : List ℕ} (h : Teardown B b pgdir τ)
    (hcl : Clears B 0 C τ free τ' free') (hk : Keeps B τ τ') : Teardown B b pgdir τ' where
  page := ⟨free', hcl.inv⟩
  dir := by rw [hk.dirFrame, h.dir]
  bound := hcl.bound h.bound

theorem steady_unmapPde (h : Teardown B b pgdir τ) (hab : a ≠ b) (hi : i.val < 955) :
    Steady B cpu a X X τ (unmapPde B cpu pgdir i) fun _ => Teardown B b pgdir := by
  obtain ⟨free, hinv⟩ := h.page
  have htr := tracked_of_lt hi b
  have hsteady : Steady B cpu a X X τ (unmapPde B cpu pgdir i) fun _ _ => True := by
    refine (steady_load _).bind fun pde τ₁ hload => ?_
    obtain ⟨rfl, rfl⟩ := hload
    refine .ite (fun hpres => ?_) fun _ => (Steady.pure ()).forget
    -- the entry refers to the page table that the inner loop reads
    obtain ⟨⟨t, ρ⟩, ht⟩ := Option.ne_none_iff_exists'.mp
      (fun hc => not_present_of_entryOf hc hpres : entryOf (τ₁.mem (frameAt pgdir) i) ≠ none)
    obtain ⟨-, hpg, -⟩ := entryOf_eq_some.mp ht
    have hm : B.Managed t := hinv.slot_managed _ t (Separated.slotRef_pde h.dir htr ht)
    refine (Steady.compute _).bind fun pt τ₂ hpt => ?_
    obtain ⟨hpt, rfl⟩ := hpt
    rw [kaddr_of_lt (by rw [State.load, hpg]; exact hm.1)] at hpt
    obtain rfl := Except.ok.inj hpt
    have hkva : frameAt (pteAddr (τ₂.load (pgdir, i)) + kernbase) = t := by
      rw [frameAt_add_kernbase, State.load, hpg]
    set pt := pteAddr (τ₂.load (pgdir, i)) + kernbase
    have hentry : entryOf (τ₂.mem (frameAt pgdir) i) = some (frameAt pt, ρ) := by rw [hkva, ht]
    have hloop : Steady B cpu a X X τ₂ ((List.finRange 1024).forM (unmapPte B cpu pgdir pt i))
        fun _ τ' => Teardown B b pgdir τ' ∧
          entryOf (τ'.mem (frameAt pgdir) i) = some (frameAt pt, ρ) := by
      refine .forM (fun j _ τ₃ h₃ => ?_) ⟨h, hentry⟩
      obtain ⟨⟨free₃, hinv₃⟩, hd₃, hb₃⟩ := h₃.1
      refine (steady_unmapPte hinv₃ hab hd₃ hi pt j).weaken fun _ τ₄ hrun => ?_
      obtain ⟨τ₄', free₄, hrun', hcl, hk⟩ := unmapPte_spec cpu hinv₃ hd₃ hi h₃.2 hb₃ j
      obtain rfl := ok_unique hrun' hrun
      have h₄ := h₃.1.clears hcl hk
      refine ⟨h₄, ?_⟩
      rw [← slots_pde h₄.dir htr, hcl.kept _ (by simp), slots_pde hd₃ htr, h₃.2]
    -- it empties the table, so that the slot of the table can be emptied
    have hforM : Computes cpu ((List.finRange 1024).forM (unmapPte B cpu pgdir pt i)) fun τ =>
        done ((List.finRange 1024).foldlM (Jos.unmapPte B cpu pgdir pt i) τ) :=
      .forM (fun j => computes_unmapPte pgdir pt i j) _
    refine (hloop.computes hforM).bind fun _ τ₃ hrun => ?_
    obtain ⟨τ₃', free₃, hrun', hcl, hk⟩ :=
      unmapPtes_spec cpu (List.finRange 1024) hinv h.dir hi hentry h.bound
    obtain rfl := ok_unique hrun' (done_eq_ok.mp hrun)
    have h₃ := h.clears hcl hk
    have hslots := slots_setWord_pde hcl.inv.separated h₃.dir htr
      (fun j => hcl.cleared _ ⟨j, List.mem_finRange j, rfl⟩) 0#32
      (fun u hu => by rw [entryOf_zero] at hu; cases hu)
    refine (Steady.write (.of_fill rfl rfl hslots fun _ _ hc => by cases hc)).bind fun _ τ₄ _ => ?_
    exact (Steady.compute _).bind fun page τ₅ _ =>
      (steady_pageDecref page).forget
  refine (hsteady.computes (computes_unmapPde pgdir i)).weaken fun _ τ' hrun => ?_
  obtain ⟨τ₁, free₁, hrun', hcl, hk⟩ := unmapPde_spec cpu hinv h.dir hi h.bound
  obtain rfl := ok_unique hrun' (done_eq_ok.mp hrun)
  exact h.clears hcl hk

end Teardown

/-- The space in `cr3` once `env_free(e)` has switched to `kern_pgdir` where it has to. -/
def awayFrom (cpu : ℕ) (e : Fin nenv) (τ : State) (a : Space) : Space :=
  if τ.curenv cpu = some e then none else a

theorem switchAway_at : Triple (At B cpu a ∅ τ) (hardware cpu (switchAway B cpu e)) fun _ σ =>
    ∃ τ', switchAway B cpu e τ = .ok τ' ∧ At B cpu (awayFrom cpu e τ a) ∅ τ' σ := by
  rintro σ u σ' hat ⟨σ₁, hfill, hrun⟩
  have hat := hat.fills hfill
  have hcur : σ₁.curenv = τ.curenv := by rw [← hat.hidden, hideTlb, setTlb_curenv]
  have hrun := done_eq_ok.mp hrun
  unfold switchAway awayFrom at *
  rw [hcur] at hrun
  by_cases hc : τ.curenv cpu = some e
  · rw [if_pos hc] at hrun ⊢
    obtain ⟨pa, hpa, rfl⟩ := map_eq_ok.mp hrun
    obtain ⟨-, rfl⟩ := paddr_eq_ok.mp hpa
    refine ⟨_, map_eq_ok.mpr ⟨_, hpa, rfl⟩, ?_⟩
    rw [if_pos hc]
    exact at_lcr3 hat.hidden (dirFrame_kern B τ)
  · rw [if_neg hc] at hrun ⊢
    obtain rfl := Except.ok.inj hrun
    exact ⟨τ, rfl, by rw [if_neg hc]; exact hat⟩

/-- `env_free`, provided that `cr3` has the directory of the environment only when
`curenv` says so. -/
theorem envFree_at (h : MemInv B τ free efree) (he : Live τ e)
    (ha : a = some e → τ.curenv cpu = some e) :
    Triple (At B cpu a ∅ τ) (envFree B cpu e) fun _ σ =>
      ∃ τ', Jos.envFree B cpu e τ = .ok τ' ∧ At B cpu (awayFrom cpu e τ a) ∅ τ' σ := by
  have haway : awayFrom cpu e τ a ≠ some e := by
    unfold awayFrom
    split
    · exact fun hc => by cases hc
    · next hc => exact fun hae => hc (ha hae)
  have htriple : Triple (At B cpu a ∅ τ) (envFree B cpu e) fun _ σ =>
      ∃ τ', True ∧ At B cpu (awayFrom cpu e τ a) ∅ τ' σ := by
    refine bind_at switchAway_at fun _ τ₁ hswitch => ?_
    obtain ⟨τ₁', hswitch', hkeeps, hpages, hfl, hmem⟩ := switchAway_spec B cpu e τ
    obtain rfl := ok_unique hswitch' hswitch
    have hslots : slots B τ₁' = slots B τ := slots_eq_of_mem hmem hkeeps.envs
    have htear : Teardown B (some e) (τ₁'.envs e).envPgdir τ₁' := by
      refine ⟨⟨free, h.page.congr hpages hfl hslots⟩, ?_, fun p => ?_⟩
      · rw [hkeeps.dirFrame, h.env.dirFrame_live he, hkeeps.envs]
      · rw [refs_eq_of_slots hslots]
        exact h.bound_held p
    refine (Steady.read _).bind fun pgdir τ₂ hread => ?_
    obtain ⟨rfl, rfl⟩ := hread
    refine (Steady.forM (fun i hi τ₃ h₃ => steady_unmapPde h₃ haway ((mem_userPdes i).mp hi))
      htear).bind fun _ τ₃ _ => ?_
    -- what is left writes the slot of the environment in the table
    refine (Steady.compute _).bind fun pa τ₄ _ => (Steady.write (.setEnv haway)).bind fun _ τ₅ _ =>
      (Steady.compute _).bind fun page τ₆ _ => (steady_pageDecref page).bind fun _ τ₇ _ =>
        (Steady.write (.setFree haway)).forget
  intro σ u σ' hat hrun
  obtain ⟨τ', -, hat'⟩ := htriple σ u σ' hat hrun
  exact ⟨τ', done_eq_ok.mp (hat.computes hat' (computes_envFree e) hrun), hat'⟩

/-! ### `env_alloc`, `env_run` and `env_destroy` -/

/-- `env_setup_vm` writes a page that was free and the slot of an environment that is
not in use. -/
theorem steady_envSetupVm (h : PageInv B τ held free) (hs : (τ.envs e).envStatus = .free)
    (ha : a ≠ some e) : Steady B cpu a X X τ (envSetupVm B cpu e) fun _ _ => True := by
  refine (steady_pageAlloc h allocZero).bind fun p τ₁ halloc => ?_
  cases p with
  | none => exact (Steady.pure _).forget
  | some p =>
    obtain ⟨rest, rfl, -, hslots, hkeeps, -⟩ := pageAlloc_some h halloc
    have hm : B.Managed p := h.free_managed p List.mem_cons_self
    refine (steady_incRef p).bind fun _ τ₂ h₂ => (Steady.compute _).bind fun pgdir τ₃ hpgdir => ?_
    obtain ⟨hpgdir, rfl⟩ := hpgdir
    rw [page2kva_of_lt hm.1] at hpgdir
    obtain rfl := Except.ok.inj hpgdir
    subst h₂
    have hframe := hm.frameAt_kva
    have hm' : B.Managed (frameAt (page2pa p + kernbase)) := by rw [hframe]; exact hm
    refine (Steady.write (.setEnv ha)).bind fun _ τ₄ h₄ => (Steady.read _).bind fun c τ₅ h₅ => ?_
    obtain ⟨-, rfl⟩ := h₅
    -- nothing refers to the new directory as long as its slot is free
    have hunref : ∀ s, slotRef B τ₅ s ≠ some (frameAt (page2pa p + kernbase)) := by
      intro s
      have hs₂ : ((τ₁.incRef p).envs e).envStatus = .free := by
        change (τ₁.envs e).envStatus = .free
        rw [hkeeps.envs, hs]
      have hslots₅ : slots B τ₅ = slots B τ := by
        rw [h₄, slots_setEnv_free hs₂]
        · exact (slots_eq_of_mem rfl rfl).trans hslots
        · exact hs₂
      rw [hframe, slotRef_eq_of_slots hslots₅]
      exact h.slot_ne_of_mem List.mem_cons_self s
    refine (steady_writePage hm' hunref c).bind fun _ τ₆ h₆ => (Steady.compute _).bind
      fun pa τ₇ h₇ => ?_
    obtain ⟨-, rfl⟩ := h₇
    exact (steady_store_unref hm' h₆ _ _).bind fun _ _ _ => (Steady.pure _).forget

theorem steady_envAlloc (h : PageInv B τ held free) (henv : EnvInv τ efree)
    (ha : ∀ e, a = some e → Live τ e) (parentId : Word) :
    Steady B cpu a X X τ (envAlloc B cpu parentId) fun r τ' =>
      Jos.envAlloc B parentId τ = .ok (r.1, r.2, τ') := by
  have hsteady : Steady B cpu a X X τ (envAlloc B cpu parentId) fun _ _ => True := by
    refine (Steady.read _).bind fun e τ₁ hread => ?_
    obtain ⟨rfl, rfl⟩ := hread
    cases hfl : τ₁.envFreeList with
    | none => exact (Steady.pure _).forget
    | some e =>
      -- the first slot of the free list is not the one in `cr3`
      have hs : (τ₁.envs e).envStatus = .free := by
        cases efree with
        | nil =>
          rw [henv.chain.head_none_iff.mpr rfl] at hfl
          cases hfl
        | cons e' rest =>
          obtain rfl := Option.some.inj (henv.chain.head_eq.symm.trans hfl)
          exact (henv.free_iff e').mp List.mem_cons_self
      have hae : a ≠ some e := fun hc => ha e hc hs
      refine (steady_envSetupVm h hs hae).bind fun r τ₂ _ => .ite (fun _ => ?_) fun _ => ?_
      · exact (Steady.pure _).forget
      · exact (Steady.write (.setEnv hae)).bind fun _ τ₃ _ =>
          (Steady.write (.of_slots rfl (dirFrame_congr rfl a) fun i j =>
            congrFun (slots_eq_of_mem rfl rfl) (.pte a i j))).bind fun _ _ _ =>
            (Steady.pure _).forget
  refine (hsteady.computes (computes_envAlloc parentId)).weaken fun r τ' hr => ?_
  obtain ⟨⟨r', ne, τ₁⟩, hrun, heq⟩ := map_eq_ok.mp hr
  obtain ⟨rfl, rfl⟩ := Prod.mk.inj heq
  exact hrun

theorem envRun_at (h : MemInv B τ free efree) (he : Live τ e) :
    Triple (At B cpu a X τ) (envRun cpu e) fun _ σ =>
      ∃ τ', Jos.envRun cpu e τ = .ok τ' ∧ At B cpu (some e) ∅ τ' σ := by
  have htake : SameSpaces τ (takeOver cpu e τ) := SameSpaces.take he cpu
  -- first only where the instructions lead, then that they compute `env_run`
  have htriple : Triple (At B cpu a X τ) (envRun cpu e) fun _ σ =>
      ∃ τ', True ∧ At B cpu (some e) ∅ τ' σ := by
    refine (Steady.write (.of_sameSpaces htake (by rw [takeOver_cpu])
      (by rw [takeOver_cpu]))).bind_triple fun _ τ₁ h₁ => ?_
    subst h₁
    refine (Steady.read _).bind_triple fun pgdir τ₂ h₂ => ?_
    obtain ⟨rfl, rfl⟩ := h₂
    refine (Steady.compute _).bind_triple fun pa τ₃ h₃ => ?_
    obtain ⟨hpa, rfl⟩ := h₃
    obtain ⟨-, rfl⟩ := paddr_eq_ok.mp hpa
    -- from `lcr3` on the entries are those of the environment
    refine lcr3_bind (b := some e) ?_ ?_
    · rw [htake.dirFrame, h.env.dirFrame_live he, htake.pgdir]
      rfl
    · set τ₄ := Jos.lcr3 cpu (((takeOver cpu e τ).envs e).envPgdir - kernbase) (takeOver cpu e τ)
      have hlive : Live τ₄ e := htake.live_iff.mpr he
      have hpop : SameSpaces τ₄ (envPopTf cpu e τ₄) := .setEnv hlive hlive rfl rfl
      exact (Steady.write (.of_sameSpaces hpop rfl rfl)).forget
  intro σ u σ' hat hrun
  obtain ⟨τ', -, hat'⟩ := htriple σ u σ' hat hrun
  exact ⟨τ', done_eq_ok.mp (hat.computes hat' (computes_envRun e) hrun), hat'⟩

/-- `sched_yield` on `kern_pgdir` stays there. -/
theorem steady_schedYield :
    Steady B cpu none ∅ ∅ τ (hardware cpu (schedYield B cpu)) fun _ _ => True := by
  rintro σ u σ' hat ⟨σ₁, hfill, hrun⟩
  have hat := hat.fills hfill
  have hrun := done_eq_ok.mp hrun
  unfold schedYield at hrun
  split at hrun
  · obtain ⟨pa, hpa, rfl⟩ := map_eq_ok.mp hrun
    obtain ⟨-, rfl⟩ := paddr_eq_ok.mp hpa
    exact ⟨_, trivial, at_lcr3 rfl (dirFrame_kern B _)⟩
  · obtain rfl := Except.ok.inj hrun
    exact ⟨τ, trivial, hat⟩

theorem envDestroy_at (h : MemInv B τ free efree) (he : Live τ e)
    (ha : a = some e → τ.curenv cpu = some e) :
    Triple (At B cpu a ∅ τ) (envDestroy B cpu e) fun _ σ =>
      ∃ τ', Jos.envDestroy B cpu e τ = .ok τ' ∧ At B cpu (awayFrom cpu e τ a) ∅ τ' σ := by
  have htriple : Triple (At B cpu a ∅ τ) (envDestroy B cpu e) fun _ σ =>
      ∃ τ', True ∧ At B cpu (awayFrom cpu e τ a) ∅ τ' σ := by
    refine (Steady.read _).bind_triple fun elsewhere τ₁ h₁ => ?_
    obtain ⟨rfl, rfl⟩ := h₁
    by_cases hmark : (τ₁.envs e).envStatus = .running ∧ τ₁.curenv cpu ≠ some e
    · -- another processor runs it: it is only marked
      rw [if_pos (decide_eq_true hmark), awayFrom, if_neg hmark.2]
      have hdying : SameSpaces τ₁ (τ₁.setEnv e { τ₁.envs e with envStatus := .dying }) :=
        .setEnv he (by simp) rfl rfl
      exact (Steady.write (.of_sameSpaces hdying rfl rfl)).forget
    · rw [if_neg (by simpa using hmark)]
      refine bind_at (envFree_at h he ha) fun _ τ₂ h₂ => ?_
      refine (Steady.read _).bind fun own τ₃ h₃ => ?_
      obtain ⟨rfl, rfl⟩ := h₃
      refine .ite (fun hown => ?_) fun _ => (Steady.pure ()).forget
      -- the processor has switched to `kern_pgdir`, and stays there
      have hcur : τ₁.curenv cpu = some e := by
        rw [← (envFree_table h₂).2.2 cpu]
        exact of_decide_eq_true hown
      rw [awayFrom, if_pos hcur]
      refine (Steady.write ?_).bind fun _ τ₄ h₄ => steady_schedYield
      exact .of_sameSpaces (.cpus rfl) (by rw [State.setCurenv, setCpu_cpus])
        (by rw [State.setCurenv, setCpu_cpus])
  intro σ u σ' hat hrun
  obtain ⟨τ', -, hat'⟩ := htriple σ u σ' hat hrun
  exact ⟨τ', done_eq_ok.mp (hat.computes hat' (computes_envDestroy e) hrun), hat'⟩

end Stepwise

end Jos
