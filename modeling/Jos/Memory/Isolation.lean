import Jos.Memory.KernelMap
import Mathlib.Order.Interval.Finset.Nat

/-!
# What user code can reach

The two sides of memory protection, over every run of the memory operations that
starts at the end of `mem_init`.

*Integrity.* An address that the processor lets user code write is below `UTOP`,
and leads to a page that `page_insert` has put there (`kernel_integrity`): the
entries above `UTOP` lack `PTE_W` at one of the two levels, and below `UTOP` a page
is either a table or mapped, never both.

*Confidentiality.* An address above `UTOP` that user code can read should lead to
the arrays the kernel publishes or to the environment's own tables. The window at
`UENVS` is 1024 pages wide and `envs` fills 31 of them, so as soon as there is an
environment, it can read pages that belong to others
(`window_confidential_iff`): it has at most 957 tables, and 993 pages are left.
-/

namespace Jos

variable {B : Boot} {σ σ' σ₀ : State} {free free' : List ℕ} {efree : List (Fin nenv)}
  {e : Fin nenv}

/-- User code may read `va` in the address space of `e`, and finds page `p`. -/
def UserReads (σ : State) (e : Fin nenv) (va : Word) (p : ℕ) : Prop :=
  ∃ π₁ π₂ : BitVec 12, translate σ e va = some (π₁, π₂, p) ∧ π₁.getLsbD 2 ∧ π₂.getLsbD 2

/-- User code may write `va` in the address space of `e`, and finds page `p`. -/
def UserWrites (σ : State) (e : Fin nenv) (va : Word) (p : ℕ) : Prop :=
  ∃ π₁ π₂ : BitVec 12, translate σ e va = some (π₁, π₂, p) ∧ (π₁.getLsbD 2 ∧ π₁.getLsbD 1) ∧
    π₂.getLsbD 2 ∧ π₂.getLsbD 1

/-! ### Where mappings come from -/

/-- The operation is a `page_insert` of page `p` at entry `i`, `j` of environment
`e`. -/
def MemOp.Inserts (e : Fin nenv) (i j : Fin 1024) (p : ℕ) (op : MemOp) : Prop :=
  ∃ cpu va perm, op = .pageInsert cpu e p va perm ∧ pdx va = i ∧ ptx va = j

/-- What an operation can do to the slot `s`: it leaves it alone, empties it, gives it a page
directory or a page table, or it is a `page_insert` there. -/
inductive SlotEffect (op : MemOp) (s : Slot) (old : Option (ℕ × BitVec 12)) :
    Option (ℕ × BitVec 12) → Prop
  | kept : SlotEffect op s old old
  | cleared : SlotEffect op s old none
  | dir (e : Fin nenv) (p : ℕ) : s = .dir e → SlotEffect op s old (some (p, 0#12))
  | table (a : Space) (i : Fin 1024) (t : ℕ) :
      s = .pde a i → SlotEffect op s old (some (t, tablePerm))
  | mapping (cpu : ℕ) (e : Fin nenv) (pp : ℕ) (va perm : Word) :
      op = .pageInsert cpu e pp va perm → s = .pte (some e) (pdx va) (ptx va) →
      SlotEffect op s old (some (pp, perm.setWidth 12 ||| 1#12))

/-- A slot that is not the one written. -/
theorem SlotEffect.of_update {op : MemOp} {s s' : Slot} {v : Option (ℕ × BitVec 12)}
    (h : slots B σ' = Function.update (slots B σ) s' v)
    (heq : s = s' → SlotEffect op s (slots B σ s) v) :
    SlotEffect op s (slots B σ s) (slots B σ' s) := by
  rw [h]
  by_cases hs : s = s'
  · have heff := heq hs
    subst hs
    rwa [Function.update_self]
  · rw [Function.update_of_ne hs]
    exact .kept

/-- A walk writes no slot but that of a new page table. -/
theorem MemInv.pgdirWalk_slot (h : MemInv B σ free efree) {a : Space} {pgdir va : Word}
    {r : Option PtePtr} (hd : dirFrame B σ a = some (frameAt pgdir)) (htr : Tracked a (pdx va))
    (hrun : pgdirWalk B pgdir va true σ = .ok (r, σ')) (op : MemOp) (s : Slot) :
    SlotEffect op s (slots B σ s) (slots B σ' s) := by
  cases ht : entryOf (σ.mem (frameAt pgdir) (pdx va)) with
  | some t =>
    obtain ⟨kva, hwalk, -⟩ := pgdirWalk_present h.page hd htr ht true
    obtain ⟨-, rfl⟩ := ok_unique_pair hrun hwalk
    exact .kept
  | none =>
    cases free with
    | nil =>
      obtain ⟨-, rfl⟩ := ok_unique_pair hrun (pgdirWalk_full h.page ht)
      exact .kept
    | cons t free =>
      obtain ⟨σ₁, kva, hwalk, -, -, hslots, -⟩ := pgdirWalk_alloc h.page hd htr ht
      obtain ⟨-, rfl⟩ := ok_unique_pair hrun hwalk
      exact .of_update hslots fun hs => .table a (pdx va) t hs

/-- `page_insert` writes one entry of a page table, and perhaps that of the table. -/
theorem MemInv.pageInsert_slot (h : MemInv B σ free efree) {cpu pp : ℕ} {va perm : Word} {r : ℤ}
    (he : Live σ e) (hva : va < utop) (hperm : perm.toNat < 4096) (hpp : Allocated B σ pp)
    (hrun : Jos.pageInsert B cpu (σ.envs e).envPgdir pp va perm σ = .ok (r, σ')) (s : Slot) :
    SlotEffect (.pageInsert cpu e pp va perm) s (slots B σ s) (slots B σ' s) := by
  have hd := h.env.dirFrame_live (B := B) he
  have hi := (lt_utop_iff va).mp hva
  have hfree : pp ∉ free := fun hc => hpp.2 ((h.page.onFreeList_iff pp).mpr hc)
  cases ht : entryOf (σ.mem (frameAt (σ.envs e).envPgdir) (pdx va)) with
  | some t =>
    obtain ⟨σ₁, hins, hslots, -⟩ :=
      pageInsert_present h.page hd hi ht hpp.1 hfree hperm h.bound_held cpu
    obtain ⟨-, rfl⟩ := ok_unique_pair hrun hins
    exact .of_update hslots fun hs => .mapping cpu e pp va perm rfl hs
  | none =>
    cases free with
    | nil =>
      -- the insertion fails
      obtain ⟨-, rfl⟩ := ok_unique_pair hrun (pageInsert_full h.page ht cpu pp perm)
      exact .kept
    | cons t free =>
      obtain ⟨σ₁, hins, hslots, -⟩ :=
        pageInsert_alloc h.page hd hi ht hpp.1 hfree hperm h.bound_held cpu
      obtain ⟨-, rfl⟩ := ok_unique_pair hrun hins
      rw [hslots]
      by_cases hpte : s = .pte (some e) (pdx va) (ptx va)
      · subst hpte
        rw [Function.update_self]
        exact .mapping cpu e pp va perm rfl rfl
      · rw [Function.update_of_ne hpte]
        by_cases hpde : s = .pde (some e) (pdx va)
        · subst hpde
          rw [Function.update_self]
          exact .table (some e) (pdx va) t rfl
        · rw [Function.update_of_ne hpde]
          exact .kept

/-- What a step does to one slot. -/
theorem MemStep.slot_effect {op : MemOp} (hs : MemStep B σ op σ') (h : MemInv B σ free efree)
    (s : Slot) : SlotEffect op s (slots B σ s) (slots B σ' s) := by
  obtain ⟨hal, hexec, hb⟩ := hs
  cases op with
  | pageAlloc flags =>
    obtain ⟨r, σ₁, hrun, hslots⟩ : ∃ r σ₁, Jos.pageAlloc B flags σ = .ok (r, σ₁) ∧
        slots B σ₁ = slots B σ := by
      cases free with
      | nil => exact ⟨none, σ, pageAlloc_nil h.page flags, rfl⟩
      | cons q free =>
        obtain ⟨σ₁, hrun, -, hslots, -⟩ := pageAlloc_spec h.page flags
        exact ⟨_, σ₁, hrun, hslots⟩
    obtain rfl := map_snd_ok hrun hexec
    rw [hslots]
    exact .kept
  | pageFree pp =>
    have hfree : pp ∉ free := fun hc => hal.1.2 ((h.page.onFreeList_iff pp).mpr hc)
    obtain ⟨σ₁, hrun, -, hrec⟩ := pageFree_spec h.page hal.1.1 hfree (by rw [hal.2]; rfl)
    obtain rfl := ok_unique hrun hexec
    rw [hrec.slots]
    exact .kept
  | envAlloc parentId =>
    obtain ⟨⟨r, ne, σ₁⟩, hrun, rfl⟩ := map_eq_ok.mp hexec
    obtain ⟨-, -, -, rfl⟩ | ⟨-, -, -, rfl⟩ | ⟨e', rest, q, free', -, -, -, -, -, -, -, hal⟩ :=
      envAlloc_ok h.page h.env h.low hrun
    · exact .kept
    · exact .kept
    · exact .of_update hal.slots fun hs => .dir e' q hs
  | envFree cpu e' =>
    obtain ⟨σ₁, free', hrun, hfreed, -⟩ := h.envFree cpu hal
    obtain rfl := ok_unique hrun hexec
    -- the freed environment has no slots left
    by_cases hown : s.owner = some e'
    · rw [hfreed.clears.cleared s hown]
      exact .cleared
    · rw [hfreed.clears.kept s hown]
      exact .kept
  | pageInsert cpu e' pp va perm =>
    obtain ⟨he, hva, hperm, hpp, -⟩ := hal
    obtain ⟨⟨r, σ₁⟩, hrun, rfl⟩ := map_eq_ok.mp hexec
    exact h.pageInsert_slot he hva hperm hpp hrun s
  | pageRemove cpu e' va =>
    obtain ⟨σ₁, hrun, hslots, -⟩ := pageRemove_spec h.page (h.env.dirFrame_live hal.1)
      ((lt_utop_iff va).mp hal.2) (fun q => (h.bound_held q).trans (by omega)) cpu
    obtain rfl := ok_unique hrun hexec
    exact .of_update hslots fun _ => .cleared
  | pgdirWalk e' va =>
    obtain ⟨⟨r, σ₁⟩, hrun, rfl⟩ := map_eq_ok.mp hexec
    exact h.pgdirWalk_slot (h.env.dirFrame_live hal.1)
      (tracked_of_lt ((lt_utop_iff va).mp hal.2) _) hrun _ s
  | kernWalk va =>
    obtain ⟨⟨r, σ₁⟩, hrun, rfl⟩ := map_eq_ok.mp hexec
    exact h.pgdirWalk_slot (a := none) rfl hal.2 hrun _ s

/-- A mapping that is new was made by `page_insert`. -/
theorem MemStep.pte_origin {op : MemOp} (hs : MemStep B σ op σ') (h : MemInv B σ free efree)
    {i j : Fin 1024} {p : ℕ} (hp : slotRef B σ' (.pte (some e) i j) = some p) :
    slotRef B σ (.pte (some e) i j) = some p ∨ op.Inserts e i j p := by
  -- of what a step can do to a slot, only an insertion fills a PTE
  have heff := hs.slot_effect h (.pte (some e) i j)
  rw [slotRef, Option.map_eq_some_iff] at hp
  obtain ⟨⟨q, π⟩, hnew, rfl⟩ := hp
  rw [hnew] at heff
  cases hold : slots B σ (.pte (some e) i j) with
  | none =>
    rw [hold] at heff
    obtain _ | _ | ⟨e', p, hs'⟩ | ⟨a, k, t, hs'⟩ | ⟨cpu, e', pp, va, perm, rfl, hs'⟩ := heff
    · cases hs'
    · cases hs'
    · obtain ⟨hee, rfl, rfl⟩ := (Slot.pte.injEq ..).mp hs'
      obtain rfl := Option.some.inj hee
      exact Or.inr ⟨cpu, va, perm, rfl, rfl, rfl⟩
  | some u =>
    rw [hold] at heff
    obtain _ | _ | ⟨e', p, hs'⟩ | ⟨a, k, t, hs'⟩ | ⟨cpu, e', pp, va, perm, rfl, hs'⟩ := heff
    · left
      rw [slotRef, hold]
      rfl
    · cases hs'
    · cases hs'
    · obtain ⟨hee, rfl, rfl⟩ := (Slot.pte.injEq ..).mp hs'
      obtain rfl := Option.some.inj hee
      exact Or.inr ⟨cpu, va, perm, rfl, rfl, rfl⟩

/-! ### Integrity -/

/-- What user code can write, after the operations `ops`. -/
structure KernelIntegrity (B : Boot) (ops : List MemOp) (σ : State) : Prop where
  below : ∀ e va p, Live σ e → UserWrites σ e va p → va < utop
  /-- The page is mapped there and was put there by `page_insert`. -/
  inserted : ∀ e va p, Live σ e → UserWrites σ e va p →
    slotRef B σ (.pte (some e) (pdx va) (ptx va)) = some p ∧
      ∃ op ∈ ops, op.Inserts e (pdx va) (ptx va) p
  allocated : ∀ e va p, Live σ e → UserWrites σ e va p →
    ¬OnFreeList σ p ∧ ¬IsTablePage B σ p ∧ p < B.npages ∧ ¬B.Reserved p
  upper : ∀ e, Live σ e → ∀ k : Fin 1024, pdx utop ≤ k → k ≠ pdx uvpt →
    σ.mem (frameAt (σ.envs e).envPgdir) k = σ.mem B.kernFrame k

/-- Above `UTOP` one of the two levels lacks `PTE_W`. -/
theorem Window.not_userWrites {t : ℕ} (hw : Window B σ t) (he : Live σ e) {va : Word} {p : ℕ}
    (hge : 955 ≤ (pdx va).val) : ¬UserWrites σ e va p := by
  rintro ⟨π₁, π₂, htr, ⟨-, hw₁⟩, -, hw₂⟩
  obtain ⟨u, hu, hq⟩ := x86Walk_eq_some.mp htr
  by_cases huvpt : pdx va = pdx uvpt
  · -- the directory maps itself for reading
    rw [huvpt, hw.own e he] at hu
    obtain ⟨rfl, rfl⟩ := Prod.mk.inj (Option.some.inj hu)
    exact absurd hw₁ (by decide)
  · rw [hw.copy e he _ hge huvpt] at hu
    by_cases henvs : pdx va = envsSlot
    · -- the table of `UENVS` is writable in the directory, its entries are not
      rw [henvs, hw.table] at hu
      obtain ⟨rfl, rfl⟩ := Prod.mk.inj (Option.some.inj hu)
      rw [hw.entry] at hq
      obtain ⟨rfl, rfl⟩ := Prod.mk.inj (Option.some.inj hq)
      exact absurd hw₂ (by decide)
    · -- nothing else is mapped
      have hlt : 955 < (pdx va).val :=
        lt_of_le_of_ne hge fun hc => henvs (Fin.ext hc.symm)
      rw [hw.nothing _ hlt huvpt] at hu
      cases hu

/-- Below `UTOP` the walk of the processor reads the `pte` slots. -/
theorem EnvInv.slotRef_of_translate (h : EnvInv σ efree) (he : Live σ e) {va : Word}
    (hva : va < utop) {π₁ π₂ : BitVec 12} {p : ℕ} (htr : translate σ e va = some (π₁, π₂, p)) :
    slotRef B σ (.pte (some e) (pdx va) (ptx va)) = some p := by
  obtain ⟨u, hu, hq⟩ := x86Walk_eq_some.mp htr
  rw [slotRef, slots_pte (h.dirFrame_live he) ((lt_utop_iff va).mp hva) hu, hq]
  rfl

/-- After every run of the memory operations that starts at the end of `mem_init`,
user code can only write what `page_insert` has mapped, and the upper half of every
address space is the kernel's. -/
theorem kernel_integrity (h₀ : Booted B σ₀) (hinit : MemInited B σ₀ σ) {ops : List MemOp}
    (hrun : Run (UserStep B) (envInit σ) ops σ') : KernelIntegrity B ops σ' := by
  obtain ⟨t, free, efree, hinv, hw⟩ := hinit.run h₀ hrun
  have hbelow : ∀ e va p, Live σ' e → UserWrites σ' e va p → va < utop := by
    intro e va p he hwr
    by_contra hge
    rw [lt_utop_iff] at hge
    exact hw.not_userWrites he (by omega) hwr
  -- so the page is the one in the `pte` slot of the address
  have hslot : ∀ e va p, Live σ' e → UserWrites σ' e va p →
      slotRef B σ' (.pte (some e) (pdx va) (ptx va)) = some p := by
    intro e va p he hwr
    have hva := hbelow e va p he hwr
    obtain ⟨π₁, π₂, htr, -⟩ := hwr
    exact hinv.env.slotRef_of_translate he hva htr
  refine ⟨hbelow, fun e va p he hwr => ⟨hslot e va p he hwr, ?_⟩, fun e va p he hwr => ?_,
    fun e he k hk hu => hw.copy e he k ?_ hu⟩
  · -- there were no mappings at the start
    have hstart : slotRef B (envInit σ) (.pte (some e) (pdx va) (ptx va)) ≠ some p := by
      rw [slotRef, slots_of_dirFrame_none (dirFrame_free ((envInit_inited σ).status e))]
      exact fun hc => by cases hc
    have horigin : ∀ σ₁ op σ₂, UpperInv B σ₁ → UserStep B σ₁ op σ₂ →
        slotRef B σ₂ (.pte (some e) (pdx va) (ptx va)) = some p →
        slotRef B σ₁ (.pte (some e) (pdx va) (ptx va)) = some p ∨
          op.Inserts e (pdx va) (ptx va) p := by
      rintro _ _ _ ⟨_, _, _, hi, _⟩ hs hp
      exact hs.1.pte_origin hi hp
    exact hrun.origin (fun _ _ _ hi hs => UpperInv.step hi hs) horigin (hinit.upperInv h₀) hstart
      (hslot e va p he hwr)
  · have hs := hslot e va p he hwr
    have hm := hinv.page.slot_managed _ p hs
    refine ⟨fun hc => hinv.page.notMem_of_slot hs ((hinv.page.onFreeList_iff p).mp hc), ?_, hm.1,
      hm.2⟩
    rintro ⟨s, hst, hsp⟩
    -- a table is referred to by its own slot only
    obtain rfl := hinv.page.unique s _ p hst hsp hs
    exact hst
  · rw [Fin.le_def, pdx_utop] at hk
    exact hk

/-- The small machine at the end of `mem_init`: there are free pages and a free slot. -/
theorem smallMachine_inited : ∃ σ d p t free rest, MemInited smallMachine smallMemory σ ∧
    MemInv smallMachine (envInit σ) (d :: p :: t :: free) (0 :: rest) := by
  have hm (p : ℕ) (h0 : p ≠ 0) (hp : p < 160) : smallMachine.Managed p :=
    (smallMachine_managed_iff p).mpr (by omega)
  obtain ⟨σ, hinit⟩ := smallMemory_booted.memInited (hm 1 (by decide) (by decide))
  obtain ⟨t, free, hmapped⟩ := hinit.mapped smallMemory_booted
  obtain ⟨hinv, -⟩ := hmapped.inv
  obtain ⟨rest, hrest⟩ : ∃ rest, List.finRange nenv = 0 :: rest := ⟨_, List.finRange_succ⟩
  rw [hrest] at hinv
  -- of four pages one may be the table
  have hsub : (Finset.Ico 1 5).erase t ⊆ free.toFinset := fun p hp => by
    obtain ⟨hne, hp⟩ := Finset.mem_erase.mp hp
    rw [Finset.mem_Ico] at hp
    exact List.mem_toFinset.mpr
      ((hmapped.mem_free p).mpr ⟨hm p (by omega) (by omega), hne⟩)
  have hcard : (Finset.Ico 1 5).card - 1 ≤ ((Finset.Ico 1 5).erase t).card :=
    Finset.pred_card_le_card_erase
  have hlen : 3 ≤ free.length :=
    hcard.trans ((Finset.card_le_card hsub).trans (List.toFinset_card_le free))
  obtain ⟨d, p, q, free, rfl⟩ : ∃ d p q rest, free = d :: p :: q :: rest := by
    match free, hlen with
    | d :: p :: q :: rest, _ => exact ⟨d, p, q, rest, rfl⟩
  exact ⟨σ, d, p, q, free, rest, hinit, hinv⟩

/-- The small machine with its first environment. -/
theorem smallMachine_firstEnv : ∃ σ σ', MemInited smallMachine smallMemory σ ∧
    Run (UserStep smallMachine) (envInit σ) [.envAlloc 0#32] σ' ∧ Live σ' 0 := by
  obtain ⟨σ, d, p, t, free, rest, hinit, hinv⟩ := smallMachine_inited
  obtain ⟨σ', halloc, hinv', hal⟩ := hinv.envAlloc_succeeds (by decide) 0#32
  exact ⟨σ, σ', hinit, .cons ⟨MemStep.envAlloc halloc hinv'.bound, trivial⟩ .nil, hal.live⟩

/-- A page that was mapped with `PTE_W` and `PTE_U` can be written. -/
theorem UserWrites.of_slots {t p : ℕ} {π₁ π₂ : BitVec 12} {va : Word} (h : EnvInv σ efree)
    (he : Live σ e) (hva : va < utop)
    (hpde : slots B σ (.pde (some e) (pdx va)) = some (t, π₁))
    (hpte : slots B σ (.pte (some e) (pdx va) (ptx va)) = some (p, π₂))
    (hw₁ : π₁.getLsbD 2 ∧ π₁.getLsbD 1) (hw₂ : π₂.getLsbD 2 ∧ π₂.getLsbD 1) :
    UserWrites σ e va p := by
  have hd := h.dirFrame_live (B := B) he
  have hi := (lt_utop_iff va).mp hva
  rw [slots_pde hd (tracked_of_lt hi _)] at hpde
  rw [slots_pte hd hi hpde] at hpte
  exact ⟨π₁, π₂, x86Walk_eq_some.mpr ⟨t, hpde, hpte⟩, hw₁, hw₂⟩

/-- It gets a page that it can write. -/
theorem kernel_integrity_smallMachine : ∃ σ σ' p ops, MemInited smallMachine smallMemory σ ∧
    ops = [.envAlloc 0#32, .pageAlloc 0#32, .pageInsert 0 0 p 0x800000#32 (pteW ||| pteU)] ∧
    Run (UserStep smallMachine) (envInit σ) ops σ' ∧ Live σ' 0 ∧
    UserWrites σ' 0 0x800000#32 p ∧ KernelIntegrity smallMachine ops σ' := by
  obtain ⟨σ, d, p, t, free, rest, hinit, hinv⟩ := smallMachine_inited
  obtain ⟨σ₁, halloc, hinv₁, hal⟩ := hinv.envAlloc_succeeds (by decide) 0#32
  have hnone : slots smallMachine σ₁ (.pde (some 0) (pdx 0x800000#32)) = none := by
    rw [hal.slots, Function.update_of_ne (by simp)]
    exact slots_of_dirFrame_none (dirFrame_free ((envInit_inited σ).status 0))
  obtain ⟨σ₂, σ', hstep, hstep', hinv', hkeeps, hslots⟩ := hinv₁.mapNew hal.live
    (show 0x800000#32 < utop by decide) (show (pteW ||| pteU).toNat < 4096 by decide) hnone 0
  have hrun : Run (UserStep smallMachine) (envInit σ) _ σ' :=
    .cons ⟨MemStep.envAlloc halloc hinv₁.bound, trivial⟩
      (.cons ⟨hstep, trivial⟩ (.cons ⟨hstep', trivial⟩ .nil))
  have hlive : Live σ' 0 := by
    rw [Live, hkeeps.envs]
    exact hal.live
  have hwrites : UserWrites σ' 0 0x800000#32 p := by
    have hpde : slots smallMachine σ' (.pde (some 0) (pdx 0x800000#32)) = some (t, tablePerm) := by
      rw [hslots, Function.update_of_ne (by simp), Function.update_self]
    have hpte : slots smallMachine σ' (.pte (some 0) (pdx 0x800000#32) (ptx 0x800000#32)) =
        some (p, 7#12) := by
      rw [hslots, Function.update_self]
      rfl
    exact .of_slots hinv'.env hlive (by decide) hpde hpte (by decide) (by decide)
  exact ⟨σ, σ', p, _, hinit, rfl, hrun, hlive, hwrites,
    kernel_integrity smallMemory_booted hinit hrun⟩

/-! ### Confidentiality -/

/-- Page `p` holds part of the array of `size` bytes at the kernel address `kva`. -/
def HoldsPart (kva : Word) (size p : ℕ) : Prop :=
  ∃ b < size, frameAt (kva + BitVec.ofNat 32 b) = p

/-- What user code can read at and above `UTOP`: the arrays `envs` and `pages`, and the
page directory and page tables it sees through `UVPT`. -/
def Confidential (B : Boot) (σ : State) : Prop :=
  ∀ e va p, Live σ e → utop ≤ va → UserReads σ e va p →
    HoldsPart B.envs (sizeofEnv * nenv) p ∨ HoldsPart B.pages (sizeofPageInfo * B.npages) p ∨
    ∃ va', pdx va' = pdx uvpt ∧ UserReads σ e va' p

theorem frameAt_add {kva : Word} {b : ℕ} (hge : 0xF0000000 ≤ kva.toNat)
    (hlt : kva.toNat + b < 2 ^ 32) :
    frameAt (kva + BitVec.ofNat 32 b) = (kva.toNat + b - 0xF0000000) / 4096 := by
  have hnat : (kva + BitVec.ofNat 32 b).toNat = kva.toNat + b := by
    rw [BitVec.toNat_add, BitVec.toNat_ofNat]
    omega
  rw [Boot.frameAt_of_ge (by rw [hnat]; omega), hnat]

/-- `envs` fills 31 pages. -/
theorem HoldsPart.envs_lt {p : ℕ} (h : HoldsPart B.envs (sizeofEnv * nenv) p) :
    p < B.bootFrame := by
  obtain ⟨b, hb, rfl⟩ := h
  have hb' : b < 126976 := hb
  have hmod := B.imageEnd_mod
  have hmod' := B.pagesSize_mod
  have hnat := B.envs_toNat.1
  have hge := B.imageEnd_ge
  have hfit := B.imageEnd_add_lt
  rw [frameAt_add (by omega) (by omega), Boot.bootFrame, B.kernFrame_eq, hnat]
  omega

/-- `pages` lies below `kern_pgdir`. -/
theorem HoldsPart.pages_lt {p : ℕ} (h : HoldsPart B.pages (sizeofPageInfo * B.npages) p) :
    p < B.bootFrame := by
  obtain ⟨b, hb, rfl⟩ := h
  have hnat : B.pages.toNat = B.imageEnd := B.allocPages_toNat.1
  have hge := B.imageEnd_ge
  have hfit := B.imageEnd_add_lt
  have hsize : b < B.pagesSize := by
    unfold Boot.pagesSize
    omega
  rw [frameAt_add (by omega) (by omega), Boot.bootFrame, B.kernFrame_eq, hnat]
  omega

namespace Window

variable {t : ℕ}

/-- User code can read all 1024 pages of the window. -/
theorem userReads_window (hw : Window B σ t) (he : Live σ e) (j : Fin 1024) :
    UserReads σ e (pgaddr envsSlot j 0#32) (B.kernFrame + 1 + j.val) := by
  refine ⟨tablePerm, 5#12, x86Walk_eq_some.mpr ⟨t, ?_, ?_⟩, by decide, by decide⟩
  · rw [pdx_pgaddr, hw.copy e he envsSlot (by decide) (by decide)]
    exact hw.table
  · rw [ptx_pgaddr]
    exact hw.entry j

/-- What shows through `UVPT` is a page of a directory entry, and there are no entries
behind the one of `UVPT`. -/
theorem entry_of_uvpt (hw : Window B σ t) (he : Live σ e) {va : Word} {p : ℕ}
    (hva : pdx va = pdx uvpt) (hr : UserReads σ e va p) :
    ∃ j : Fin 958, ∃ π, entryOf (σ.mem (frameAt (σ.envs e).envPgdir) (j.castLE (by decide))) =
      some (p, π) := by
  obtain ⟨π₁, π₂, htr, -⟩ := hr
  obtain ⟨u, hu, hq⟩ := x86Walk_eq_some.mp htr
  rw [hva, hw.own e he] at hu
  obtain ⟨rfl, rfl⟩ := Prod.mk.inj (Option.some.inj hu)
  -- the page table entries seen through `UVPT` are the directory entries
  have hlt : (ptx va).val < 958 := by
    by_contra hge
    have hne : ptx va ≠ pdx uvpt := by
      intro hc
      rw [hc, pdx_uvpt] at hge
      exact hge (by decide)
    rw [hw.copy e he _ (by omega) hne, hw.nothing _ (by omega) hne] at hq
    cases hq
  exact ⟨⟨(ptx va).val, hlt⟩, π₂, hq⟩

/-- An environment can read more of the window than the arrays and its own tables. -/
theorem not_confidential (hw : Window B σ t) (he : Live σ e) : ¬Confidential B σ := by
  intro hconf
  -- each page of the window behind `envs` would be one of its tables
  have htable : ∀ k : Fin 993, ∃ j : Fin 958, ∃ π,
      entryOf (σ.mem (frameAt (σ.envs e).envPgdir) (j.castLE (by decide))) =
        some (B.bootFrame + k.val, π) := by
    intro k
    have hk := k.isLt
    have hread := hw.userReads_window he ⟨31 + k.val, by omega⟩
    rw [show B.kernFrame + 1 + (31 + k.val) = B.bootFrame + k.val by unfold Boot.bootFrame; omega]
      at hread
    have hge : utop ≤ pgaddr envsSlot ⟨31 + k.val, by omega⟩ 0#32 := by
      rw [← BitVec.not_lt, lt_utop_iff, pdx_pgaddr]
      decide
    obtain hpart | hpart | ⟨va, hva, hr⟩ := hconf e _ _ he hge hread
    · exact absurd hpart.envs_lt (by omega)
    · exact absurd hpart.pages_lt (by omega)
    · exact hw.entry_of_uvpt he hva hr
  -- but there are more such pages than tables
  choose f π hf using htable
  have hinj : Function.Injective f := by
    intro k k' hkk
    have hk := hf k
    rw [hkk, hf k'] at hk
    have hpage := (Prod.mk.inj (Option.some.inj hk)).1
    exact Fin.ext (by omega)
  have hcard := Fintype.card_le_of_injective f hinj
  simp at hcard

end Window

/-- After every run that starts at the end of `mem_init`, the windows above `UTOP` are
confidential if and only if there is no environment. -/
theorem window_confidential_iff (h₀ : Booted B σ₀) (hinit : MemInited B σ₀ σ) {ops : List MemOp}
    (hrun : Run (UserStep B) (envInit σ) ops σ') :
    Confidential B σ' ↔ ∀ e, ¬Live σ' e := by
  obtain ⟨t, free, efree, -, hw⟩ := hinit.run h₀ hrun
  constructor
  · exact fun hconf e he => hw.not_confidential he hconf
  · exact fun hno e _ _ he => absurd he (hno e)

theorem window_confidential_smallMachine : ∃ σ, MemInited smallMachine smallMemory σ ∧
    Confidential smallMachine (envInit σ) := by
  obtain ⟨σ, -, hinit, -⟩ := smallMachine_firstEnv
  exact ⟨σ, hinit, (window_confidential_iff smallMemory_booted hinit .nil).mpr fun e he =>
    he ((envInit_inited σ).status e)⟩

/-- The first environment can already read what it should not. -/
theorem window_exposes_memory : ∃ σ σ', MemInited smallMachine smallMemory σ ∧
    Run (UserStep smallMachine) (envInit σ) [.envAlloc 0#32] σ' ∧
      ¬Confidential smallMachine σ' := by
  obtain ⟨σ, σ', hinit, hrun, hlive⟩ := smallMachine_firstEnv
  obtain ⟨t, free, efree, -, hw⟩ := hinit.run smallMemory_booted hrun
  exact ⟨σ, σ', hinit, hrun, hw.not_confidential hlive⟩

end Jos
