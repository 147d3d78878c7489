import Jos.Memory.UserCheck
import Jos.Memory.VirtualTables

/-!
# `user_mem_check` and the processor

`user_mem_check` looks at the page table entry of a page alone, and the processor at the
directory entry as well. Below `UTOP` this makes no difference: every page table has been put
into its directory by `pgdir_walk`, with all permissions (`TablePerms`). Above `UTOP` the
directory entries are those of `mem_init` and `env_setup_vm`:

* at `UENVS` the directory entry has `PTE_W` and the page table entries do not, so the check
  refuses what the processor refuses;
* at `UVPT` it is the other way round. The page table is the directory, whose entries have
  `PTE_W`, and `PTE_W` is missing in the directory entry. The check accepts a range for writing
  there when each of its pages shows a page table.

With the ranges that reach the last page, whose rounded end is 0, these are the only ones that
are accepted wrongly (`userMemCheck_granted_iff`).
-/

namespace Jos

variable {B : Boot} {σ σ' σ₀ : State} {e : Fin nenv} {va len perm : Word}

/-- The processor lets user code access `a` in the address space of `e`: the entries of both
levels have all the bits of `perm`. -/
def Permitted (σ : State) (e : Fin nenv) (perm a : Word) : Prop :=
  ∃ (π₁ π₂ : BitVec 12) (p : ℕ), translate σ e a = some (π₁, π₂, p) ∧
    π₁ &&& perm.setWidth 12 = perm.setWidth 12 ∧ π₂ &&& perm.setWidth 12 = perm.setWidth 12

/-- If `user_mem_check` accepts the range, the processor permits the access to every byte of
it. -/
def Granted (B : Boot) (e : Fin nenv) (va len perm : Word) (σ : State) : Prop :=
  ∀ σ', userMemCheck B e va len perm σ = .ok (0, σ') → ∀ a, InRange va len a →
    Permitted σ e (perm ||| pteP) a

/-- Every page of the range is one at which the processor shows a page table of the
environment, other than the page directory. -/
def ShowsTables (σ : State) (e : Fin nenv) (va len : Word) : Prop :=
  ∀ a, InRange va len a → pdx a = pdx uvpt ∧ ptx a ≠ pdx uvpt ∧
    present (σ.load ((σ.envs e).envPgdir, ptx a)) = true

/-! ### The permissions of page tables -/

/-- Every page table of an environment is in its directory with all permissions. -/
def TablePerms (B : Boot) (σ : State) : Prop :=
  ∀ e i u, slots B σ (.pde (some e) i) = some u → u.2 = tablePerm

theorem TablePerms.step {free : List ℕ} {efree : List (Fin nenv)} {op : MemOp}
    (h : TablePerms B σ) (hinv : MemInv B σ free efree) (hs : MemStep B σ op σ') :
    TablePerms B σ' := by
  intro e i u hu
  have heff := hs.slot_effect hinv (.pde (some e) i)
  generalize hnew : slots B σ' (.pde (some e) i) = new at heff hu
  cases heff with
  | kept => exact h e i u hu
  | cleared => cases hu
  | dir e' p hs' => cases hs'
  | table a k t hs' =>
    cases hu
    rfl
  | mapping cpu e' pp va perm hop hs' => cases hs'

/-- There is no environment at the start. -/
theorem tablePerms_envInit (B : Boot) (σ : State) : TablePerms B (envInit σ) := by
  intro e i u hu
  rw [slots_of_dirFrame_none (dirFrame_free ((envInit_inited σ).status e))] at hu
  cases hu

/-- The tables of all environments have their permissions after every run. -/
theorem MemInited.tablePerms (h₀ : Booted B σ₀) (h : MemInited B σ₀ σ) {ops : List MemOp}
    (hrun : Run (UserStep B) (envInit σ) ops σ') : UpperInv B σ' ∧ TablePerms B σ' := by
  refine hrun.invariant (P := fun σ => UpperInv B σ ∧ TablePerms B σ) ?_
    ⟨h.upperInv h₀, tablePerms_envInit B σ⟩
  rintro σ₁ op σ₂ ⟨hupper, hperms⟩ hs
  refine ⟨hupper.step hs, ?_⟩
  obtain ⟨t, free, efree, hinv, -⟩ := hupper
  exact hperms.step hinv hs.1

theorem UpperInv.tablesInMemory (h : UpperInv B σ) (he : Live σ e) :
    TablesInMemory B σ (σ.envs e).envPgdir :=
  fun i t π ht => h.dirsSafe.entry _ ⟨e, he, rfl⟩ i t π ht

/-! ### What the check sees -/

/-- The bits of `perm` are among the twelve of an entry. -/
theorem and_eq_iff_setWidth {w perm : Word} (hperm : perm.toNat < 4096) :
    w &&& perm = perm ↔ w.setWidth 12 &&& perm.setWidth 12 = perm.setWidth 12 := by
  constructor
  · intro h
    rw [← BitVec.setWidth_and, h]
  · intro h
    apply BitVec.eq_of_getLsbD_eq
    intro i hi
    by_cases hlow : i < 12
    · have hbit := congrArg (fun v => v.getLsbD i) h
      simpa [BitVec.getLsbD_setWidth, hlow] using hbit
    · have hbit : perm.getLsbD i = false := by
        rw [BitVec.getLsbD]
        exact Nat.testBit_lt_two_pow (hperm.trans_le
          (Nat.pow_le_pow_right (show 0 < 2 by decide) (show 12 ≤ i by omega)))
      rw [BitVec.getLsbD_and, hbit, Bool.and_false]

theorem present_of_and_eq {w perm : Word} (h : w &&& perm = perm) (hp : present perm = true) :
    present w = true := by
  rw [present, bne_iff_ne] at hp ⊢
  intro h0
  apply hp
  calc perm &&& pteP
      = w &&& perm &&& pteP := by rw [h]
    _ = w &&& pteP &&& perm := by
        rw [BitVec.and_assoc, BitVec.and_comm perm, ← BitVec.and_assoc]
    _ = 0#32 := by rw [h0, BitVec.zero_and]

/-- The check accepts a page when the directory has a page table for it whose entry has the
bits. -/
theorem TablesInMemory.pageOk_iff {pgdir a : Word} (h : TablesInMemory B σ pgdir)
    (hperm : perm.toNat < 4096) (hp : present perm = true) :
    PageOk B σ pgdir perm a ↔ a < ulim ∧ ∃ t π₁ p π₂,
      entryOf (σ.mem (frameAt pgdir) (pdx a)) = some (t, π₁) ∧
      entryOf (σ.mem t (ptx a)) = some (p, π₂) ∧
      π₂ &&& perm.setWidth 12 = perm.setWidth 12 := by
  rw [PageOk]
  refine and_congr_right fun _ => ?_
  constructor
  · rintro ⟨pte, hwalk, hbits⟩
    cases ht : entryOf (σ.mem (frameAt pgdir) (pdx a)) with
    | none =>
      obtain ⟨hpte, -⟩ := ok_unique_pair hwalk (pgdirWalk_absent ht)
      cases hpte
    | some u =>
      obtain ⟨t, π₁⟩ := u
      obtain ⟨kva, hwalk', rfl⟩ := pgdirWalk_of_entry ht (h _ _ _ ht) false
      obtain ⟨hpte, -⟩ := ok_unique_pair hwalk hwalk'
      obtain rfl := Option.some.inj hpte
      -- `PTE_P` is one of the bits that the entry was asked for
      have hpres := present_of_and_eq hbits hp
      exact ⟨_, π₁, _, _, rfl, entryOf_some hpres, (and_eq_iff_setWidth hperm).mp hbits⟩
  · rintro ⟨t, π₁, p, π₂, ht, hq, hbits⟩
    obtain ⟨kva, hwalk, rfl⟩ := pgdirWalk_of_entry ht (h _ _ _ ht) false
    obtain ⟨-, -, rfl⟩ := entryOf_eq_some.mp hq
    exact ⟨(kva, ptx a), hwalk, (and_eq_iff_setWidth hperm).mpr hbits⟩

/-- The bits that `user_mem_check` asks for when it is called with `perm`. -/
theorem userPerm_cases (hsub : perm &&& (pteU ||| pteW) = perm) (hu : perm &&& pteU = pteU) :
    perm = pteU ∨ perm = pteU ||| pteW := by
  have hle : perm.toNat ≤ 6 := by
    rw [← hsub, BitVec.toNat_and]
    exact Nat.and_le_right
  obtain ⟨n, rfl⟩ : ∃ n : Fin 7, perm = BitVec.ofNat 32 n.val :=
    ⟨⟨perm.toNat, by omega⟩, by rw [BitVec.ofNat_toNat, BitVec.setWidth_eq]⟩
  revert n
  decide

section Directory

variable (h : UpperInv B σ) (hperms : TablePerms B σ) (he : Live σ e)

include h he

/-- The directory entry of `UVPT` can be read. -/
theorem UpperInv.dirEntry_uvpt :
    entryOf (σ.mem (frameAt (σ.envs e).envPgdir) (pdx uvpt)) =
      some (frameAt (σ.envs e).envPgdir, 5#12) := by
  obtain ⟨t, free, efree, -, hw⟩ := h
  exact hw.own e he

/-- So nothing in its window can be written. -/
theorem UpperInv.not_permitted_uvpt {a : Word} (ha : pdx a = pdx uvpt) :
    ¬Permitted σ e (pteU ||| pteW ||| pteP) a := by
  rintro ⟨π₁, π₂, p, htr, hπ₁, -⟩
  obtain ⟨u, hdir, -⟩ := x86Walk_eq_some.mp htr
  rw [ha, h.dirEntry_uvpt he] at hdir
  obtain ⟨-, rfl⟩ := Prod.mk.inj (Option.some.inj hdir)
  exact absurd hπ₁ (by decide)

/-- Nothing is mapped at `UPAGES`. -/
theorem UpperInv.dirEntry_upages :
    entryOf (σ.mem (frameAt (σ.envs e).envPgdir) (pdx upages)) = none := by
  obtain ⟨t, free, efree, -, hw⟩ := h
  rw [hw.copy e he (pdx upages) (by decide) (by decide)]
  exact hw.nothing (pdx upages) (by decide) (by decide)

/-- Nor is anything mapped in the last page. -/
theorem UpperInv.not_permitted_last {a : Word} (ha : 0xFFFFF000 ≤ a.toNat) :
    ¬Permitted σ e perm a := by
  rintro ⟨π₁, π₂, p, htr, -⟩
  obtain ⟨u, hu, -⟩ := x86Walk_eq_some.mp htr
  have hlast : pdx a = 1023 := by
    ext
    have hlt := a.isLt
    rw [pdx_val]
    change _ = 1023
    omega
  obtain ⟨t, free, efree, -, hw⟩ := h
  rw [hlast, hw.copy e he 1023 (by decide) (by decide), hw.nothing 1023 (by decide) (by decide)]
    at hu
  cases hu

/-- A range whose rounded end wraps is accepted unseen, and the last byte is the kernel's. -/
theorem UpperInv.not_granted_of_wrapped (hlen : 0#32 < len)
    (hrange : va.toNat + len.toNat ≤ 2 ^ 32) (hwrap : 2 ^ 32 ≤ va.toNat + len.toNat + 4095) :
    ¬Granted B e va len perm σ := by
  intro hgrant
  have hpos : 0 < len.toNat := hlen
  have hacc : userMemCheck B e va len perm σ = .ok (0, σ) := by
    rw [Jos.userMemCheck_zero_iff]
    refine ⟨rfl, fun k hk => ?_⟩
    rw [pagesChecked_wrapped hwrap, if_neg (by omega)] at hk
    exact absurd hk (Nat.not_lt_zero k)
  have hlast : (va + (len - 1#32)).toNat = va.toNat + len.toNat - 1 := by
    rw [BitVec.toNat_add, BitVec.toNat_sub, show (1#32).toNat = 1 from rfl]
    omega
  have hin : InRange va len (va + (len - 1#32)) := by
    rw [InRange, BitVec.le_def, hlast]
    omega
  exact h.not_permitted_last he (by omega) (hgrant σ hacc _ hin)

/-- What the check accepts for reading in the window of `UVPT` can be read there. -/
theorem UpperInv.permitted_uvpt {a : Word} (ha : pdx a = pdx uvpt)
    (hok : PageOk B σ (σ.envs e).envPgdir (pteU ||| pteP) a) :
    Permitted σ e (pteU ||| pteP) a := by
  obtain ⟨-, t, π₁, p, π₂, ht, hq, hπ₂⟩ :=
    ((h.tablesInMemory he).pageOk_iff (by decide) (by decide)).mp hok
  have hdir := ht
  rw [ha, h.dirEntry_uvpt he] at hdir
  obtain ⟨-, rfl⟩ := Prod.mk.inj (Option.some.inj hdir)
  exact ⟨_, π₂, p, x86Walk_eq_some.mpr ⟨t, ht, hq⟩, by decide, hπ₂⟩

/-- A range whose rounded end does not wrap is accepted when all its pages are. -/
theorem UpperInv.userMemCheck_zero_iff (hlen : 0#32 < len)
    (hfit : va.toNat + len.toNat + 4095 < 2 ^ 32) :
    (∃ σ', userMemCheck B e va len perm σ = .ok (0, σ')) ↔
      ∀ a, InRange va len a → PageOk B σ (σ.envs e).envPgdir (perm ||| pteP) a := by
  obtain ⟨r, σ₁, hrun, hex⟩ :=
    userMemCheck_exact B e va len perm σ (h.tablesInMemory he) hlen hfit
  rw [← hex.zero_iff]
  constructor
  · rintro ⟨σ', hrun'⟩
    exact (ok_unique_pair hrun hrun').1
  · rintro rfl
    exact ⟨σ₁, hrun⟩

include hperms

/-- All other entries of a directory have all permissions. -/
theorem UpperInv.dirEntry_perm {i : Fin 1024} (hi : i ≠ pdx uvpt) {t : ℕ} {π : BitVec 12}
    (ht : entryOf (σ.mem (frameAt (σ.envs e).envPgdir) i) = some (t, π)) : π = tablePerm := by
  obtain ⟨t₀, free, efree, hinv, hw⟩ := h
  by_cases hlow : i.val < 955
  · refine hperms e i (t, π) ?_
    rw [← ht]
    exact slots_pde (hinv.env.dirFrame_live he) (tracked_of_lt hlow _)
  · rw [hw.copy e he i (by omega) hi] at ht
    by_cases henvs : i = envsSlot
    · rw [henvs, hw.table] at ht
      exact (Prod.mk.inj (Option.some.inj ht)).2.symm
    · rw [hw.nothing i (lt_of_le_of_ne (not_lt.mp hlow) fun hc => henvs (Fin.ext hc.symm)) hi] at ht
      cases ht

/-- Outside the window of `UVPT` the two checks agree. -/
theorem UpperInv.permitted_of_pageOk {a : Word} (hbits : perm = pteU ∨ perm = pteU ||| pteW)
    (hok : PageOk B σ (σ.envs e).envPgdir (perm ||| pteP) a) (ha : pdx a ≠ pdx uvpt) :
    Permitted σ e (perm ||| pteP) a := by
  have hlt : (perm ||| pteP).toNat < 4096 ∧ present (perm ||| pteP) = true ∧
      tablePerm &&& (perm ||| pteP).setWidth 12 = (perm ||| pteP).setWidth 12 := by
    obtain rfl | rfl := hbits <;> decide
  obtain ⟨-, t, π₁, p, π₂, ht, hq, hπ₂⟩ :=
    ((h.tablesInMemory he).pageOk_iff hlt.1 hlt.2.1).mp hok
  obtain rfl := h.dirEntry_perm hperms he ha ht
  exact ⟨tablePerm, π₂, p, x86Walk_eq_some.mpr ⟨t, ht, hq⟩, hlt.2.2, hπ₂⟩

/-- In the window of `UVPT` the check accepts the pages of page tables for writing. -/
theorem UpperInv.pageOk_uvpt_iff {a : Word} (ha : pdx a = pdx uvpt) :
    PageOk B σ (σ.envs e).envPgdir (pteU ||| pteW ||| pteP) a ↔
      ptx a ≠ pdx uvpt ∧ present (σ.load ((σ.envs e).envPgdir, ptx a)) = true := by
  have hulim : a < ulim := by
    have hval := congrArg Fin.val ha
    rw [pdx_val, pdx_uvpt] at hval
    rw [BitVec.lt_def, show ulim.toNat = 958 * 4194304 by decide]
    omega
  rw [(h.tablesInMemory he).pageOk_iff (by decide) (by decide), and_iff_right hulim, ha,
    h.dirEntry_uvpt he]
  constructor
  · rintro ⟨t, π₁, p, π₂, ht, hq, hπ₂⟩
    obtain ⟨rfl, rfl⟩ := Prod.mk.inj (Option.some.inj ht)
    refine ⟨?_, (entryOf_eq_some.mp hq).1⟩
    -- the directory maps itself for reading only
    intro hself
    rw [hself, h.dirEntry_uvpt he] at hq
    obtain ⟨-, rfl⟩ := Prod.mk.inj (Option.some.inj hq)
    exact absurd hπ₂ (by decide)
  · rintro ⟨hself, hpres⟩
    have hq := entryOf_some hpres
    refine ⟨_, _, _, _, rfl, hq, ?_⟩
    rw [h.dirEntry_perm hperms he hself hq]
    decide

/-- A range that the check accepts for writing is in the window or outside of it. -/
theorem UpperInv.range_uvpt (hok : ∀ a, InRange va len a →
    PageOk B σ (σ.envs e).envPgdir (pteU ||| pteW ||| pteP) a) {a₀ : Word}
    (ha₀ : InRange va len a₀) (huvpt : pdx a₀ = pdx uvpt) : ShowsTables σ e va len := by
  intro a ha
  have huvpt' : pdx a = pdx uvpt := by
    by_contra hne
    -- the last byte before the window would be in the range
    have hlast : InRange va len (uvpt - 1#32) := by
      have hge := congrArg Fin.val huvpt
      have hlt := (hok a ha).1
      have hne' := Fin.val_ne_of_ne hne
      rw [pdx_val, pdx_uvpt] at hge hne'
      rw [BitVec.lt_def, show ulim.toNat = 958 * 4194304 by decide] at hlt
      have hle := BitVec.le_def.mp ha.1
      have hend := ha₀.2
      rw [InRange, BitVec.le_def, show (uvpt - 1#32).toNat = 957 * 4194304 - 1 by decide]
      change _ / _ = 957 at hge
      change ¬_ / _ = 957 at hne'
      omega
    have hbad := hok _ hlast
    rw [(h.tablesInMemory he).pageOk_iff (by decide) (by decide)] at hbad
    obtain ⟨-, t, π₁, p, π₂, ht, -⟩ := hbad
    rw [show pdx (uvpt - 1#32) = pdx upages by decide, h.dirEntry_upages he] at ht
    cases ht
  exact ⟨huvpt', (h.pageOk_uvpt_iff hperms he huvpt').mp (hok a ha)⟩

end Directory

/-- In every state that the kernel reaches, a range that `user_mem_check` grants is one that
the processor permits, unless it reaches the last page, or it is to be written and shows page
tables in the window of `UVPT`. -/
theorem userMemCheck_granted_iff (h₀ : Booted B σ₀) (hinit : MemInited B σ₀ σ) {ops : List MemOp}
    (hrun : Run (UserStep B) (envInit σ) ops σ') (he : Live σ' e)
    (hsub : perm &&& (pteU ||| pteW) = perm) (hu : perm &&& pteU = pteU) (hlen : 0#32 < len)
    (hrange : va.toNat + len.toNat ≤ 2 ^ 32) :
    Granted B e va len perm σ' ↔
      va.toNat + len.toNat + 4095 < 2 ^ 32 ∧
        ¬(perm &&& pteW = pteW ∧ ShowsTables σ' e va len) := by
  obtain ⟨hupper, hperms⟩ := hinit.tablePerms h₀ hrun
  have hbits := userPerm_cases hsub hu
  have hpos : 0 < len.toNat := hlen
  by_cases hfit : va.toNat + len.toNat + 4095 < 2 ^ 32
  · rw [and_iff_right hfit]
    have hzero : (∃ σ'', userMemCheck B e va len perm σ' = .ok (0, σ'')) ↔ _ :=
      hupper.userMemCheck_zero_iff he hlen hfit
    constructor
    · rintro hgrant ⟨hw, hshows⟩
      obtain rfl : perm = pteU ||| pteW := by
        refine hbits.resolve_left ?_
        rintro rfl
        exact absurd hw (by decide)
      -- it accepts the range, and the processor refuses its first byte
      obtain ⟨σ₁, hacc⟩ := hzero.mpr fun a ha =>
        (hupper.pageOk_uvpt_iff hperms he (hshows a ha).1).mpr (hshows a ha).2
      have hva : InRange va len va := ⟨BitVec.le_refl va, by omega⟩
      exact hupper.not_permitted_uvpt he (hshows va hva).1 (hgrant σ₁ hacc va hva)
    · intro hnot σ₁ hacc a ha
      have hok := hzero.mp ⟨σ₁, hacc⟩
      by_cases huvpt : pdx a = pdx uvpt
      · obtain rfl | rfl := hbits
        · exact hupper.permitted_uvpt he huvpt (hok a ha)
        · exact absurd ⟨by decide, hupper.range_uvpt hperms he hok ha huvpt⟩ hnot
      · exact hupper.permitted_of_pageOk hperms he hbits (hok a ha) huvpt
  · have hwrap : 2 ^ 32 ≤ va.toNat + len.toNat + 4095 := by omega
    exact iff_of_false (hupper.not_granted_of_wrapped he hlen hrange hwrap) fun hc => hfit hc.1

/-- The first environment may read `envs`, as it is told. -/
theorem userMemCheck_granted_smallMachine : ∃ σ σ', MemInited smallMachine smallMemory σ ∧
    Run (UserStep smallMachine) (envInit σ) [.envAlloc 0#32] σ' ∧ Live σ' 0 ∧
    (∃ σ'', userMemCheck smallMachine 0 uenvs 0x2000#32 pteU σ' = .ok (0, σ'')) ∧
    Granted smallMachine 0 uenvs 0x2000#32 pteU σ' := by
  obtain ⟨σ, σ', hinit, hrun, hlive⟩ := smallMachine_firstEnv
  refine ⟨σ, σ', hinit, hrun, hlive, ?_, ?_⟩
  · obtain ⟨hupper, hperms⟩ := hinit.tablePerms smallMemory_booted hrun
    rw [hupper.userMemCheck_zero_iff hlive (by decide) (by decide)]
    rintro a ⟨hle, hlt⟩
    rw [BitVec.le_def, show uenvs.toNat = 955 * 4194304 by decide] at hle
    rw [show uenvs.toNat = 955 * 4194304 by decide, show (0x2000#32).toNat = 8192 from rfl] at hlt
    have hslot : pdx a = envsSlot := by
      ext
      rw [pdx_val]
      change _ = 955
      omega
    rw [(hupper.tablesInMemory hlive).pageOk_iff (by decide) (by decide), hslot]
    obtain ⟨t, free, efree, -, hw⟩ := hupper
    rw [hw.copy 0 hlive envsSlot (by decide) (by decide), BitVec.lt_def,
      show ulim.toNat = 958 * 4194304 by decide]
    exact ⟨by omega, t, _, _, _, hw.table, hw.entry (ptx a), by decide⟩
  · exact (userMemCheck_granted_iff smallMemory_booted hinit hrun hlive (by decide) (by decide)
      (by decide) (by decide)).mpr ⟨by decide, fun hc => absurd hc.1 (by decide)⟩

/-- The check accepts for writing the byte of the window that shows the page table of `UENVS`,
and the processor does not let user code write it. -/
theorem userMemCheck_grants_uvpt : ∃ σ σ', MemInited smallMachine smallMemory σ ∧
    Run (UserStep smallMachine) (envInit σ) [.envAlloc 0#32] σ' ∧ Live σ' 0 ∧
    (∃ σ'', userMemCheck smallMachine 0 (pgaddr (pdx uvpt) envsSlot 0#32) 1#32 (pteU ||| pteW) σ' =
      .ok (0, σ'')) ∧
    ¬Permitted σ' 0 (pteU ||| pteW ||| pteP) (pgaddr (pdx uvpt) envsSlot 0#32) ∧
    ¬Granted smallMachine 0 (pgaddr (pdx uvpt) envsSlot 0#32) 1#32 (pteU ||| pteW) σ' := by
  obtain ⟨σ, σ', hinit, hrun, hlive⟩ := smallMachine_firstEnv
  obtain ⟨hupper, hperms⟩ := hinit.tablePerms smallMemory_booted hrun
  -- the directory has the table of `UENVS`
  have hpres : present (σ'.load ((σ'.envs 0).envPgdir, envsSlot)) = true := by
    obtain ⟨t, free, efree, -, hw⟩ := hupper
    have htable := hw.table
    rw [← hw.copy 0 hlive envsSlot (by decide) (by decide)] at htable
    exact (entryOf_eq_some.mp htable).1
  have hacc : ∃ σ'', userMemCheck smallMachine 0 (pgaddr (pdx uvpt) envsSlot 0#32) 1#32
      (pteU ||| pteW) σ' = .ok (0, σ'') := by
    rw [hupper.userMemCheck_zero_iff hlive (by decide) (by decide)]
    rintro a ⟨hle, hlt⟩
    obtain rfl : a = pgaddr (pdx uvpt) envsSlot 0#32 := by
      rw [BitVec.le_def] at hle
      rw [show (1#32).toNat = 1 from rfl] at hlt
      exact BitVec.eq_of_toNat_eq (by omega)
    exact (hupper.pageOk_uvpt_iff hperms hlive (by decide)).mpr
      ⟨by decide, by rwa [ptx_pgaddr]⟩
  have hnot : ¬Permitted σ' 0 (pteU ||| pteW ||| pteP) (pgaddr (pdx uvpt) envsSlot 0#32) :=
    hupper.not_permitted_uvpt hlive (pdx_pgaddr _ _)
  refine ⟨σ, σ', hinit, hrun, hlive, hacc, hnot, fun hgrant => ?_⟩
  obtain ⟨σ'', hacc⟩ := hacc
  exact hnot (hgrant σ'' hacc _ ⟨BitVec.le_refl _, by decide⟩)

end Jos
