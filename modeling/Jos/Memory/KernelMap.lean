import Jos.Memory.Lifetime

/-!
# The address space above `UTOP`

`mem_init` maps the array `envs` at `UENVS` in `kern_pgdir`, and `env_setup_vm`
copies the upper half of `kern_pgdir` into every page directory. `Window` is what
this leaves: the kernel's directory has one page table above `UTOP`, which maps
1024 pages from the first page of `envs` on, and every live environment has the
same entries, with its own directory at `UVPT`.

`memInitMap_spec` is the loop of `boot_map_region`; `MemInited` is the end of
`mem_init`; `UserStep.effect` says what a step of the memory operations can do to
the upper half, and `MemInited.run` that `Window` holds after every run of them.
-/

namespace Jos

variable {B : Boot} {σ σ' σ₀ : State} {free free' : List ℕ} {efree : List (Fin nenv)}

/-- The directory slot of `UENVS`. -/
abbrev envsSlot : Fin 1024 := 955

/-! ### `boot_map_region` -/

theorem uenvs_add_toNat {k : ℕ} (hk : k < 1024) :
    (uenvs + BitVec.ofNat 32 (k * 4096)).toNat = 0xEEC00000 + k * 4096 := by
  rw [BitVec.toNat_add, BitVec.toNat_ofNat, show uenvs.toNat = 0xEEC00000 by decide]
  omega

theorem pdx_uenvs_add {k : ℕ} (hk : k < 1024) :
    pdx (uenvs + BitVec.ofNat 32 (k * 4096)) = envsSlot := by
  apply Fin.ext
  rw [pdx_val, uenvs_add_toNat hk]
  change _ = 955
  omega

theorem ptx_uenvs_add {k : ℕ} (hk : k < 1024) :
    (ptx (uenvs + BitVec.ofNat 32 (k * 4096))).val = k := by
  rw [ptx_val, uenvs_add_toNat hk]
  omega

theorem page2pa_succ {q : ℕ} (hq : q + 1 < 2 ^ 20) : page2pa q + pgsize = page2pa (q + 1) := by
  apply BitVec.eq_of_toNat_eq
  rw [BitVec.toNat_add, page2pa_toNat (by omega), page2pa_toNat hq,
    show pgsize.toNat = 4096 from rfl]
  omega

/-- The entries of a page table after `boot_map_region` has mapped `n` pages from
frame `q` on, from entry `k` on. -/
def mapEntries (c : Fin 1024 → Word) (perm : Word) (k n q : ℕ) (j : Fin 1024) : Word :=
  if k ≤ j.val ∧ j.val < k + n then page2pa (q + (j.val - k)) ||| perm ||| pteP else c j

theorem tracked_envsSlot : Tracked none envsSlot := by
  rw [Tracked, pdx_uvpt]
  decide

section Region

variable {t : ℕ}

/-- Writing the table of `UENVS` changes no slot: only page tables below `UTOP` hold
references. -/
theorem Separated.slots_envsTable (h : Separated B σ)
    (ht : entryOf (σ.mem B.kernFrame envsSlot) = some (t, tablePerm)) (c : Fin 1024 → Word) :
    slots B (σ.setFrame t c) = slots B σ := by
  have hkern : dirFrame B σ none = some B.kernFrame := rfl
  have hne : ∀ f, f ≠ t → (σ.setFrame t c).mem f = σ.mem f :=
    fun f hf => Function.update_of_ne hf ..
  refine slots_congr (fun a => dirFrame_congr rfl a) (fun a d hd i _ => ?_)
    fun a d i u hd hi hu => hne _ ?_
  · -- the table is not a directory
    rw [hne d (h.table_ne_dirFrame hkern hd tracked_envsSlot ht)]
  · -- nor is it the table of an entry below `UTOP`
    rintro rfl
    obtain ⟨-, rfl⟩ := h.table_inj hkern hd tracked_envsSlot (tracked_of_lt hi a) ht hu
    exact absurd hi (by decide)

theorem mapEntries_zero (c : Fin 1024 → Word) (perm : Word) (k q : ℕ) :
    mapEntries c perm k 0 q = c := by
  funext j
  exact if_neg (by omega)

theorem mapEntries_succ (c : Fin 1024 → Word) (perm : Word) {k : ℕ} (n q : ℕ) {i : Fin 1024}
    (hi : i.val = k) :
    mapEntries (Function.update c i (page2pa q ||| perm ||| pteP)) perm (k + 1) n (q + 1) =
      mapEntries c perm k (n + 1) q := by
  ext j
  unfold mapEntries
  by_cases hji : j = i
  · subst hji
    rw [if_neg (by omega), Function.update_self, if_pos (by omega), hi, Nat.sub_self, Nat.add_zero]
  · have hne : j.val ≠ k := fun hc => hji (Fin.ext (hc.trans hi.symm))
    rw [Function.update_of_ne hji]
    by_cases hj : k + 1 ≤ j.val ∧ j.val < k + 1 + n
    · rw [if_pos hj, if_pos (by omega), show q + 1 + (j.val - (k + 1)) = q + (j.val - k) by omega]
    · rw [if_neg hj, if_neg (by omega)]

/-- The loop of `boot_map_region` over the region of one page table that exists. -/
theorem bootMapLoop_eq (h : PageInv B σ 0 free)
    (ht : entryOf (σ.mem B.kernFrame envsSlot) = some (t, tablePerm)) (perm : Word) (n : ℕ)
    {k q : ℕ}
    (hk : k + n ≤ 1024) (hq : q + n < 2 ^ 20) :
    bootMapLoop B B.kernPgdir perm n (uenvs + BitVec.ofNat 32 (k * 4096)) (page2pa q) σ =
      .ok (σ.setFrame t (mapEntries (σ.mem t) perm k n q)) := by
  induction n generalizing σ k q with
  | zero =>
    rw [bootMapLoop, mapEntries_zero]
    congr 1
    change σ = { σ with mem := Function.update σ.mem t (σ.mem t) }
    rw [Function.update_eq_self]
  | succ n ih =>
    set va := uenvs + BitVec.ofNat 32 (k * 4096) with hva
    -- the region is that of one page table, so the walk finds it every time
    have hpdx : pdx va = envsSlot := pdx_uenvs_add (by omega)
    obtain ⟨kva, hwalk, hkva⟩ : ∃ kva, pgdirWalk B B.kernPgdir va true σ =
        .ok (some (kva, ptx va), σ) ∧ frameAt kva = t :=
      pgdirWalk_present (a := none) h rfl (by rw [hpdx]; exact tracked_envsSlot)
        (by rw [hpdx]; exact ht) true
    set i := ptx va with hi
    have hik : i.val = k := ptx_uenvs_add (by omega)
    set c := Function.update (σ.mem t) i (page2pa q ||| perm ||| pteP) with hc
    have hstore : σ.store (kva, i) (page2pa q ||| perm ||| pteP) = σ.setFrame t c := by
      rw [State.store, hkva]
      rfl
    have hslots := h.separated.slots_envsTable ht c
    -- the store changes neither the slots nor the directory, so the rest goes on from it
    have hnext : va + pgsize = uenvs + BitVec.ofNat 32 ((k + 1) * 4096) := by
      calc va + pgsize
          = uenvs + (BitVec.ofNat 32 (k * 4096) + BitVec.ofNat 32 4096) := by
            rw [hva, BitVec.add_assoc]
            rfl
        _ = uenvs + BitVec.ofNat 32 ((k + 1) * 4096) := by
            rw [← BitVec.ofNat_add, Nat.add_mul, Nat.one_mul]
    have hdir : (σ.setFrame t c).mem B.kernFrame = σ.mem B.kernFrame :=
      Function.update_of_ne (h.separated.table_ne_dirFrame (a := none) rfl
        (show dirFrame B σ none = some B.kernFrame from rfl) tracked_envsSlot ht) ..
    have hinv : PageInv B (σ.setFrame t c) 0 free := h.congr rfl rfl hslots
    have hrest := ih hinv (by rw [hdir]; exact ht) (k := k + 1) (q := q + 1) (by omega) (by omega)
    simp only [bootMapLoop, hwalk, ok_bind]
    rw [hstore, hnext, page2pa_succ (by omega), hrest]
    have htab : (σ.setFrame t c).mem t = c := Function.update_self ..
    rw [htab, hc, mapEntries_succ (σ.mem t) perm n q hik]
    congr 1
    change { σ with mem := Function.update (Function.update σ.mem t c) t _ } = _
    rw [Function.update_idem]
    rfl

end Region

/-- Out of memory for a page table. -/
theorem bootMapLoop_full {pgdir perm va pa : Word} (n : ℕ)
    (hwalk : pgdirWalk B pgdir va true σ = .ok (none, σ')) :
    bootMapLoop B pgdir perm (n + 1) va pa σ =
      .error ⟨"boot_map_region panic: out of memory"⟩ := by
  simp only [bootMapLoop, hwalk, ok_bind]

/-- A walk that allocates the page table leaves the loop where one that finds it
starts. -/
theorem bootMapLoop_walked {pgdir perm va pa kva kva' : Word} {i : Fin 1024} (n : ℕ)
    (hwalk : pgdirWalk B pgdir va true σ = .ok (some (kva, i), σ'))
    (hwalk' : pgdirWalk B pgdir va true σ' = .ok (some (kva', i), σ'))
    (hframe : frameAt kva = frameAt kva') :
    bootMapLoop B pgdir perm (n + 1) va pa σ = bootMapLoop B pgdir perm (n + 1) va pa σ' := by
  simp only [bootMapLoop, hwalk, hwalk', ok_bind, State.store, hframe]

theorem Boot.kernFrame_lt_pow (B : Boot) : B.kernFrame + 1 + 1024 < 2 ^ 20 := by
  have h := B.imageEnd_add_lt
  rw [B.kernFrame_eq]
  omega

theorem page2pa_envs (B : Boot) : paddr B.envs = .ok (page2pa (B.kernFrame + 1)) := by
  have hlt := B.kernFrame_lt_pow
  have hnat := B.envs_toNat.1
  have hge := B.imageEnd_ge
  have hk : kernbase.toNat = 0xF0000000 := rfl
  have hle : kernbase ≤ B.envs := by
    rw [BitVec.le_def, hk]
    omega
  refine paddr_eq_ok.mpr ⟨hle, ?_⟩
  have hm₁ := B.imageEnd_mod
  have hm₂ := B.pagesSize_mod
  apply BitVec.eq_of_toNat_eq
  rw [BitVec.toNat_sub_of_le hle, page2pa_toNat (by omega), B.kernFrame_eq, hnat, hk]
  omega

/-- What `mem_init` has done to memory when its mapping of `envs` is in place. -/
structure EnvsMapped (B : Boot) (t : ℕ) (σ σ' : State) : Prop where
  slots : slots B σ' = Function.update (slots B σ) (.pde none envsSlot) (some (t, tablePerm))
  envs : σ'.envs = σ.envs
  envFreeList : σ'.envFreeList = σ.envFreeList
  table : entryOf (σ'.mem B.kernFrame envsSlot) = some (t, tablePerm)
  dir : ∀ k, k ≠ envsSlot → σ'.mem B.kernFrame k = σ.mem B.kernFrame k
  other : ∀ f, f ≠ t → f ≠ B.kernFrame → σ'.mem f = σ.mem f
  /-- All 1024 entries of the table are used. -/
  entry : ∀ j : Fin 1024, entryOf (σ'.mem t j) = some (B.kernFrame + 1 + j.val, 5#12)

/-- The mapping of `envs` takes the first free page as its page table. -/
theorem memInitMap_alloc {t : ℕ} (h : PageInv B σ 0 (t :: free))
    (habs : entryOf (σ.mem B.kernFrame envsSlot) = none) :
    ∃ σ', memInitMap B σ = .ok σ' ∧ PageInv B σ' 0 free ∧ EnvsMapped B t σ σ' := by
  have hlt := B.kernFrame_lt_pow
  have hpdx : pdx uenvs = envsSlot := by decide
  obtain ⟨σ₁, kva, hwalk, hkva, hinv, hslots, henvs, hefl, -, htab, -, hother, -⟩ :
      ∃ σ₁ kva, pgdirWalk B B.kernPgdir uenvs true σ = .ok (some (kva, ptx uenvs), σ₁) ∧ _ :=
    pgdirWalk_alloc (a := none) h rfl (by rw [hpdx]; exact tracked_envsSlot)
      (by rw [hpdx]; exact habs)
  rw [hpdx] at hslots htab hother
  have htk : t ≠ B.kernFrame := (h.free_managed t List.mem_cons_self).ne_kernFrame
  -- once the table is there, the loop is the same as one that finds it
  obtain ⟨kva', hwalk', hkva'⟩ : ∃ kva', pgdirWalk B B.kernPgdir uenvs true σ₁ =
      .ok (some (kva', ptx uenvs), σ₁) ∧ frameAt kva' = t :=
    pgdirWalk_present (a := none) hinv rfl (by rw [hpdx]; exact tracked_envsSlot)
      (by rw [hpdx]; exact htab) true
  have hzero : uenvs = uenvs + BitVec.ofNat 32 (0 * 4096) := by decide
  set c := mapEntries (σ₁.mem t) pteU 0 1024 (B.kernFrame + 1) with hc
  have hloop : bootMapLoop B B.kernPgdir pteU 1024 uenvs (page2pa (B.kernFrame + 1)) σ =
      .ok (σ₁.setFrame t c) := by
    rw [bootMapLoop_walked 1023 hwalk hwalk' (hkva.trans hkva'.symm), hzero,
      bootMapLoop_eq hinv htab pteU 1024 (k := 0) (by omega) (by omega)]
  have hslots' := hinv.separated.slots_envsTable htab c
  have hkern : (σ₁.setFrame t c).mem B.kernFrame = σ₁.mem B.kernFrame :=
    Function.update_of_ne htk.symm ..
  refine ⟨σ₁.setFrame t c, ?_, hinv.congr rfl rfl hslots', hslots'.trans hslots, henvs, hefl, ?_,
    ?_, fun f hft hfk => ?_, ?_⟩
  · rw [memInitMap, page2pa_envs, ok_bind]
    exact hloop
  · rw [hkern]
    exact htab
  · intro k hk
    rw [hkern]
    exact hother _ _ htk.symm fun hx => hk (Prod.mk.inj hx).2
  · rw [show (σ₁.setFrame t c).mem f = σ₁.mem f from Function.update_of_ne hft ..]
    exact funext fun k => hother f k hft fun hx => hfk (Prod.mk.inj hx).1
  · -- all 1024 entries are in the region
    intro j
    have hj := j.isLt
    have hentry : (σ₁.setFrame t c).mem t j =
        page2pa (B.kernFrame + 1 + j.val) ||| pteU ||| pteP := by
      rw [show (σ₁.setFrame t c).mem t = c from Function.update_self .., hc, mapEntries,
        if_pos (by omega), Nat.sub_zero]
    rw [hentry, entryOf_page2pa (by omega) (by decide)]
    rfl

/-- If `mem_init` gets past its mapping of `envs`, it had a page for the table. -/
theorem memInitMap_spec (h : PageInv B σ 0 free)
    (habs : entryOf (σ.mem B.kernFrame envsSlot) = none) (hrun : memInitMap B σ = .ok σ') :
    ∃ t free', free = t :: free' ∧ PageInv B σ' 0 free' ∧ EnvsMapped B t σ σ' := by
  cases free with
  | nil =>
    -- without a page for the table `boot_map_region` panics
    have hwalk : pgdirWalk B B.kernPgdir uenvs true σ = .ok (none, σ) :=
      pgdirWalk_full h habs
    rw [memInitMap, page2pa_envs, ok_bind] at hrun
    have hloop : bootMapLoop B B.kernPgdir pteU 1024 uenvs (page2pa (B.kernFrame + 1)) σ = .ok σ' :=
      hrun
    rw [bootMapLoop_full 1023 hwalk] at hloop
    cases hloop
  | cons t free =>
    obtain ⟨σ₁, hok, hinv, hmapped⟩ := memInitMap_alloc h habs
    obtain rfl := ok_unique hok hrun
    exact ⟨t, free, rfl, hinv, hmapped⟩

/-! ### The end of `mem_init` -/

/-- What the self-tests of `mem_init` leave behind when they return: they take pages from
the free list, write to them, and put them back in some order. For `check_page_free_list`
this is `checkPageFreeList_checked`. -/
structure Checked (σ σ' : State) : Prop where
  free : ∀ l, Chain σ.link σ.pageFreeList l → ∃ l', Chain σ'.link σ'.pageFreeList l' ∧ l'.Perm l
  link : ∀ p, ¬OnFreeList σ p → σ'.link p = σ.link p
  ref : σ'.ref = σ.ref
  mem : ∀ f, ¬OnFreeList σ f → σ'.mem f = σ.mem f
  envs : σ'.envs = σ.envs
  envFreeList : σ'.envFreeList = σ.envFreeList

theorem Checked.slots (h : Checked σ σ') (hinv : PageInv B σ 0 free) :
    slots B σ' = slots B σ := by
  -- a page that is referred to is not free, so the tests have not written it
  have hkeep : ∀ s p, slotRef B σ s = some p → σ'.mem p = σ.mem p := fun s p hs =>
    h.mem p fun hc => hinv.notMem_of_slot hs ((hinv.onFreeList_iff p).mp hc)
  refine slots_congr (dirFrame_congr h.envs) ?_ fun a d i t hd hi ht =>
    hkeep _ _ (Separated.slotRef_pde hd (tracked_of_lt hi a) ht)
  intro a d hd i _
  cases a with
  | none =>
    obtain rfl := Option.some.inj hd
    rw [h.mem B.kernFrame fun hc => ?_]
    exact (hinv.free_managed _ ((hinv.onFreeList_iff _).mp hc)).ne_kernFrame rfl
  | some e => rw [hkeep (.dir e) d (by rw [slotRef_dir, hd])]

theorem Checked.pageInv (h : Checked σ σ') (hinv : PageInv B σ 0 free) :
    ∃ free', PageInv B σ' 0 free' ∧ ∀ p, p ∈ free' ↔ p ∈ free := by
  obtain ⟨free', hchain, hperm⟩ := h.free free hinv.chain
  have hmem : ∀ p, p ∈ free' ↔ p ∈ free := fun p => hperm.mem_iff
  -- `check_page_free_list` may reorder the list, and nothing else depends on its order
  have hslots := slotRef_eq_of_slots (h.slots hinv)
  refine ⟨free', ⟨hchain, ?_, fun p hp => hinv.free_managed p ((hmem p).mp hp),
    ?_, ?_, ?_, hinv.held_managed, ?_⟩, hmem⟩
  · intro p hp
    have hp' : p ∉ free := fun hc => hp ((hmem p).mpr hc)
    rw [h.link p fun hc => hp' ((hinv.onFreeList_iff p).mp hc)]
    exact hinv.link_none p hp'
  · intro p hp
    rw [hslots]
    exact hinv.free_unref p ((hmem p).mp hp)
  · intro p hp
    rw [h.ref, hslots]
    exact hinv.count p hp
  · rw [hslots]
    exact hinv.slot_managed
  · rw [hslots]
    exact hinv.unique

/-- The kernel's directory is never on the free list. -/
theorem Checked.kernDir (h : Checked σ σ') (hinv : PageInv B σ 0 free) :
    σ'.mem B.kernFrame = σ.mem B.kernFrame :=
  h.mem _ fun hc =>
    (hinv.free_managed _ ((hinv.onFreeList_iff _).mp hc)).ne_kernFrame rfl

/-- The state at the end of `mem_init`, which has come from `σ₀` when it calls
`page_init`. -/
def MemInited (B : Boot) (σ₀ σ : State) : Prop :=
  ∃ σ₁ σ₂ pa, Checked (pageInit B σ₀) σ₁ ∧ memInitMap B σ₁ = .ok σ₂ ∧
    paddr B.kernPgdir = .ok pa ∧ Checked (lcr3 0 pa σ₂) σ

/-- `mem_init` leaves the table as it was when it called `page_init`. -/
theorem MemInited.table (h₀ : Booted B σ₀) (h : MemInited B σ₀ σ) :
    σ.envs = σ₀.envs ∧ σ.envFreeList = σ₀.envFreeList := by
  obtain ⟨σ₁, σ₂, pa, hcheck₁, hmap, -, hcheck₂⟩ := h
  obtain ⟨free₀, -, -, hsame⟩ := pageInit_spec h₀
  rw [memInitMap, page2pa_envs, ok_bind] at hmap
  have htab := bootMapLoop_table hmap
  constructor
  · calc
      σ.envs = σ₂.envs := hcheck₂.envs
      _ = σ₁.envs := htab.envs
      _ = (pageInit B σ₀).envs := hcheck₁.envs
      _ = σ₀.envs := hsame.envs
  · calc
      σ.envFreeList = σ₂.envFreeList := hcheck₂.envFreeList
      _ = σ₁.envFreeList := htab.envFreeList
      _ = (pageInit B σ₀).envFreeList := hcheck₁.envFreeList
      _ = σ₀.envFreeList := hsame.envFreeList

theorem Checked.refl (σ : State) : Checked σ σ :=
  ⟨fun l hl => ⟨l, hl, .refl l⟩, fun _ _ => rfl, rfl, fun _ _ => rfl, rfl, rfl⟩

/-- Memory at the end of `mem_init`: the only slot in use is that of the table `t` of
`UENVS`. -/
structure KernelMapped (B : Boot) (t : ℕ) (free : List ℕ) (σ : State) : Prop where
  page : PageInv B σ 0 free
  mem_free : ∀ p, p ∈ free ↔ B.Managed p ∧ p ≠ t
  slots : slots B σ = Function.update (fun _ => none) (Slot.pde none envsSlot) (some (t, tablePerm))
  status : ∀ e, (σ.envs e).envStatus = .free
  envFreeList : σ.envFreeList = none
  self : σ.mem B.kernFrame (pdx uvpt) = (B.kernPgdir - kernbase) ||| pteU ||| pteP
  table : entryOf (σ.mem B.kernFrame envsSlot) = some (t, tablePerm)
  nothing : ∀ k, k ≠ envsSlot → k ≠ pdx uvpt → entryOf (σ.mem B.kernFrame k) = none
  entry : ∀ j : Fin 1024, entryOf (σ.mem t j) = some (B.kernFrame + 1 + j.val, 5#12)

/-- `mem_init` comes to its end when there is a page to manage and the self-tests return. If these
leave memory as it is, only `kern_pgdir` and the table of `UENVS` are written. -/
theorem Booted.memInited_mem (h₀ : Booted B σ₀) {p : ℕ} (hp : B.Managed p) :
    ∃ σ t, MemInited B σ₀ σ ∧ entryOf (σ.mem B.kernFrame envsSlot) = some (t, tablePerm) ∧
      (∀ f, f ≠ t → f ≠ B.kernFrame → σ.mem f = σ₀.mem f) ∧ ∀ c, σ.curenv c = σ₀.curenv c := by
  obtain ⟨free, hinv, hmem, hsame⟩ := pageInit_spec h₀
  have habs : entryOf ((pageInit B σ₀).mem B.kernFrame envsSlot) = none := by
    rw [hsame.mem, h₀.kernDir, Function.update_of_ne (by decide)]
    exact entryOf_zero
  cases free with
  | nil => exact absurd ((hmem p).mpr hp) List.not_mem_nil
  | cons t free =>
    obtain ⟨σ₂, hmap, -, hmapped⟩ := memInitMap_alloc hinv habs
    refine ⟨lcr3 0 (B.kernPgdir - kernbase) σ₂, t, ⟨_, σ₂, _, Checked.refl _, hmap,
      paddr_eq_ok.mpr ⟨kernbase_le_kernPgdir B, rfl⟩, Checked.refl _⟩, hmapped.table,
      fun f hft hfk => ?_, fun c => ?_⟩
    · rw [← hsame.mem]
      exact hmapped.other f hft hfk
    · rw [memInitMap, page2pa_envs, ok_bind] at hmap
      rw [(lcr3_table 0 _ σ₂).curenv, (bootMapLoop_table hmap).curenv, State.curenv, hsame.cpus]
      rfl

theorem Booted.memInited (h₀ : Booted B σ₀) {p : ℕ} (hp : B.Managed p) :
    ∃ σ, MemInited B σ₀ σ :=
  have ⟨σ, _, hinit, _⟩ := h₀.memInited_mem hp
  ⟨σ, hinit⟩

/-- What `mem_init` has mapped at its end. -/
theorem MemInited.mapped (h₀ : Booted B σ₀) (h : MemInited B σ₀ σ) :
    ∃ t free, KernelMapped B t free σ := by
  obtain ⟨henvs, hefl⟩ := h.table h₀
  obtain ⟨σ₁, σ₂, pa, hcheck₁, hmap, -, hcheck₂⟩ := h
  obtain ⟨free₀, hinv₀, hmem₀, hsame⟩ := pageInit_spec h₀
  obtain ⟨free₁, hinv₁, hmem₁⟩ := hcheck₁.pageInv hinv₀
  -- the first tests leave `kern_pgdir` with its self-referring entry alone
  have hslots₁ : slots B σ₁ = fun _ => none := by
    rw [hcheck₁.slots hinv₀, hsame.slots]
    exact funext h₀.slots_none
  have hkern₁ : σ₁.mem B.kernFrame = Function.update (fun _ => 0#32) (pdx uvpt)
      ((B.kernPgdir - kernbase) ||| pteU ||| pteP) := by
    rw [hcheck₁.kernDir hinv₀, hsame.mem, h₀.kernDir]
  have hzero : ∀ k, k ≠ pdx uvpt → entryOf (σ₁.mem B.kernFrame k) = none := by
    intro k hk
    rw [hkern₁, Function.update_of_ne hk]
    exact entryOf_zero
  have huvpt : envsSlot ≠ pdx uvpt := by decide
  obtain ⟨t, free₂, rfl, hinv₂, hmapped⟩ := memInitMap_spec hinv₁ (hzero envsSlot huvpt) hmap
  -- switching to `kern_pgdir` touches the processor only
  have hlcr : slots B (lcr3 0 pa σ₂) = slots B σ₂ := slots_eq_of_mem rfl rfl
  have hinv₃ : PageInv B (lcr3 0 pa σ₂) 0 free₂ := hinv₂.congr rfl rfl hlcr
  obtain ⟨free, hinv, hmem⟩ := hcheck₂.pageInv hinv₃
  have hslots : slots B σ =
      Function.update (fun _ => none) (Slot.pde none envsSlot) (some (t, tablePerm)) := by
    rw [hcheck₂.slots hinv₃, hlcr, hmapped.slots, hslots₁]
  -- the table is not on the free list, so the tests keep it
  have hslot : slotRef B (lcr3 0 pa σ₂) (.pde none envsSlot) = some t := by
    rw [slotRef, hlcr, hmapped.slots, Function.update_self]
    rfl
  have htab : σ.mem t = σ₂.mem t := hcheck₂.mem t fun hc =>
    hinv₃.notMem_of_slot hslot ((hinv₃.onFreeList_iff t).mp hc)
  have hkern : σ.mem B.kernFrame = σ₂.mem B.kernFrame := hcheck₂.kernDir hinv₃
  have hdir : ∀ k, k ≠ envsSlot → σ.mem B.kernFrame k = σ₁.mem B.kernFrame k := fun k hk => by
    rw [hkern, hmapped.dir k hk]
  refine ⟨t, free, hinv, ?_, hslots, ?_, hefl.trans h₀.envFreeList, ?_, ?_,
    ?_, ?_⟩
  · -- the free pages are all but the table
    intro p
    have hnew : t ∉ free₂ := (List.nodup_cons.mp hinv₁.chain.nodup).1
    rw [hmem, ← hmem₀ p, ← hmem₁ p, List.mem_cons]
    constructor
    · exact fun hp => ⟨Or.inr hp, fun hc => hnew (hc ▸ hp)⟩
    · exact fun hp => hp.1.resolve_left hp.2
  · intro e
    rw [henvs, h₀.envs]
  · rw [hdir _ huvpt.symm, hkern₁, Function.update_self]
  · rw [hkern]
    exact hmapped.table
  · intro k hk hu
    rw [hdir k hk]
    exact hzero k hu
  · intro j
    rw [htab]
    exact hmapped.entry j

/-- The upper half of all address spaces: the table `t` of `UENVS` is the kernel's
only one, it maps 1024 pages from the first page of `envs` on for reading, and every
live environment has a copy of the kernel's entries, with its own directory at
`UVPT`. -/
structure Window (B : Boot) (σ : State) (t : ℕ) : Prop where
  table : entryOf (σ.mem B.kernFrame envsSlot) = some (t, tablePerm)
  nothing : ∀ k : Fin 1024, 955 < k.val → k ≠ pdx uvpt → entryOf (σ.mem B.kernFrame k) = none
  entry : ∀ j : Fin 1024, entryOf (σ.mem t j) = some (B.kernFrame + 1 + j.val, 5#12)
  copy : ∀ e, Live σ e → ∀ k : Fin 1024, 955 ≤ k.val → k ≠ pdx uvpt →
    σ.mem (frameAt (σ.envs e).envPgdir) k = σ.mem B.kernFrame k
  own : ∀ e, Live σ e → entryOf (σ.mem (frameAt (σ.envs e).envPgdir) (pdx uvpt)) =
    some (frameAt (σ.envs e).envPgdir, 5#12)

/-- `env_init` changes no slot while there is no environment. -/
theorem slots_envInit (h : ∀ e, dirFrame B σ (some e) = none) :
    slots B (envInit σ) = slots B σ := by
  have hin := envInit_inited σ
  refine slots_congr ?_ (fun _ _ _ _ _ => by rw [hin.mem])
    fun _ _ _ _ _ _ _ => by rw [hin.mem]
  intro a
  cases a with
  | none => rfl
  | some e => rw [h e, dirFrame_free (hin.status e)]

/-- There is one slot in all. -/
theorem KernelMapped.refs_le {t : ℕ} (h : KernelMapped B t free σ) (p : ℕ) :
    refs B (envInit σ) p ≤ 1 := by
  have hslots := slots_envInit fun e => dirFrame_free (B := B) (h.status e)
  have hnone : refCount (fun _ : Slot => (none : Option ℕ)) p = 0 :=
    refCount_eq_zero.mpr fun s hs => by cases hs
  have hone : slotRef B (envInit σ) =
      Function.update (fun _ => none) (Slot.pde none envsSlot) (some t) := by
    ext s
    rw [slotRef, hslots, h.slots]
    by_cases hs : s = .pde none envsSlot
    · rw [hs, Function.update_self, Function.update_self]
      rfl
    · rw [Function.update_of_ne hs, Function.update_of_ne hs]
      rfl
  rw [refs, hone, refCount_update_some rfl, hnone]
  split <;> omega

/-- `mem_init` and `env_init` establish the invariant. -/
theorem KernelMapped.inv {t : ℕ} (h : KernelMapped B t free σ) :
    MemInv B (envInit σ) free (List.finRange nenv) ∧ Window B (envInit σ) t := by
  have hin := envInit_inited σ
  have hslots := slots_envInit fun e => dirFrame_free (B := B) (h.status e)
  -- no counter is near its capacity
  have hbound : ∀ p, refs B (envInit σ) p ≤ 65535 := fun p => (h.refs_le p).trans (by decide)
  refine ⟨⟨⟨h.page.congr hin.pages hin.pageFreeList hslots, hbound⟩, envInit_spec h.envFreeList,
    ?_, ?_⟩, ?_, ?_, ?_,
    fun e he => absurd (hin.status e) he, fun e he => absurd (hin.status e) he⟩
  · intro i hi
    rw [hin.mem]
    refine h.nothing i ?_ ?_
    · rintro rfl
      exact absurd hi (by decide)
    · rintro rfl
      exact absurd hi (by decide)
  · rw [hin.mem]
    exact h.self
  · rw [hin.mem]
    exact h.table
  · intro k hk hu
    rw [hin.mem]
    refine h.nothing k ?_ hu
    rintro rfl
    exact absurd hk (by decide)
  · intro j
    rw [hin.mem]
    exact h.entry j

/-! ### Runs -/

/-- The operations on environments: all but the kernel's own walks. -/
def MemOp.OnUser : MemOp → Prop
  | .kernWalk _ => False
  | _ => True

/-- A step of an operation on environments. -/
def UserStep (B : Boot) (σ : State) (op : MemOp) (σ' : State) : Prop :=
  MemStep B σ op σ' ∧ op.OnUser

/-- What a step can do above `UTOP`: nothing, or it makes or frees an environment. -/
theorem UserStep.effect {op : MemOp} (hs : UserStep B σ op σ') (h : MemInv B σ free efree) :
    Keeps B σ σ' ∨
    (∃ parentId e p, p ∈ free ∧ EnvAllocated B parentId e p σ σ') ∨
    ∃ e free', EnvFreed B 0 e σ free σ' free' := by
  obtain ⟨⟨hal, hexec, hb⟩, huser⟩ := hs
  cases op with
  | pageAlloc flags =>
    obtain ⟨r, σ₁, hrun, hinv⟩ := h.pageAlloc flags
    obtain rfl := map_snd_ok hrun hexec
    obtain ⟨free', -, hloc⟩ := hinv hb
    exact Or.inl ((hloc (some 0)).keeps (by simp))
  | pageFree pp =>
    obtain ⟨σ₁, hrun, hinv⟩ := h.pageFree hal.1 hal.2
    obtain rfl := ok_unique hrun hexec
    obtain ⟨free', -, hloc⟩ := hinv hb
    exact Or.inl ((hloc (some 0)).keeps (by simp))
  | envAlloc parentId =>
    obtain ⟨⟨r, ne, σ₁⟩, hrun, rfl⟩ := map_eq_ok.mp hexec
    obtain ⟨-, -, -, rfl⟩ | ⟨-, -, -, rfl⟩ | ⟨e, rest, p, free', -, rfl, -, -, -, -, -, hal⟩ :=
      envAlloc_ok h.page h.env h.low hrun
    · -- a failed `env_alloc` changes nothing
      exact Or.inl (Keeps.refl B _)
    · exact Or.inl (Keeps.refl B _)
    · exact Or.inr (Or.inl ⟨parentId, e, p, List.mem_cons_self, hal⟩)
  | envFree cpu e =>
    obtain ⟨σ₁, free', hrun, hfreed, -⟩ := h.envFree cpu hal
    obtain rfl := ok_unique hrun hexec
    exact Or.inr (Or.inr ⟨e, free', hfreed⟩)
  | pageInsert cpu e pp va perm =>
    obtain ⟨he, hva, hperm, hpp, htab⟩ := hal
    obtain ⟨r, σ₁, hrun, hinv⟩ := h.pageInsert cpu he hva hperm hpp htab
    obtain rfl := map_snd_ok hrun hexec
    obtain ⟨free', -, hloc⟩ := hinv hb
    exact Or.inl (hloc.keeps (by simp))
  | pageRemove cpu e va =>
    obtain ⟨σ₁, hrun, hinv⟩ := h.pageRemove cpu hal.1 hal.2
    obtain rfl := ok_unique hrun hexec
    obtain ⟨free', -, hloc⟩ := hinv hb
    exact Or.inl (hloc.keeps (by simp))
  | pgdirWalk e va =>
    obtain ⟨r, σ₁, hrun, hinv⟩ := h.walk (h.env.dirFrame_live hal.1)
      (tracked_of_lt ((lt_utop_iff va).mp hal.2) _) (fun hc => by cases hc)
    obtain rfl := map_snd_ok hrun hexec
    obtain ⟨free', -, hloc⟩ := hinv hb
    exact Or.inl (hloc.keeps (by simp))
  | kernWalk va => exact absurd huser id

namespace Window

variable {t : ℕ}

/-- The kernel's part of the window after a step that keeps its entries and its
table. -/
theorem of_kept (h : Window B σ t)
    (hkern : ∀ k : Fin 1024, 955 ≤ k.val → σ'.mem B.kernFrame k = σ.mem B.kernFrame k)
    (htab : σ'.mem t = σ.mem t)
    (hcopy : ∀ e, Live σ' e → (∀ k : Fin 1024, 955 ≤ k.val → k ≠ pdx uvpt →
      σ'.mem (frameAt (σ'.envs e).envPgdir) k = σ'.mem B.kernFrame k) ∧
      entryOf (σ'.mem (frameAt (σ'.envs e).envPgdir) (pdx uvpt)) =
        some (frameAt (σ'.envs e).envPgdir, 5#12)) :
    Window B σ' t where
  table := by
    rw [hkern envsSlot (by decide)]
    exact h.table
  nothing k hk hu := by
    rw [hkern k (by omega)]
    exact h.nothing k hk hu
  entry j := by
    rw [htab]
    exact h.entry j
  copy e he := (hcopy e he).1
  own e he := (hcopy e he).2

/-- An environment whose directory is kept above `UTOP` keeps its copy. -/
theorem copy_of_kept (h : Window B σ t) {e : Fin nenv} (he : Live σ e)
    (henv : (σ'.envs e).envPgdir = (σ.envs e).envPgdir)
    (hkern : ∀ k : Fin 1024, 955 ≤ k.val → σ'.mem B.kernFrame k = σ.mem B.kernFrame k)
    (hdir : ∀ k : Fin 1024, 955 ≤ k.val →
      σ'.mem (frameAt (σ.envs e).envPgdir) k = σ.mem (frameAt (σ.envs e).envPgdir) k) :
    (∀ k : Fin 1024, 955 ≤ k.val → k ≠ pdx uvpt →
      σ'.mem (frameAt (σ'.envs e).envPgdir) k = σ'.mem B.kernFrame k) ∧
    entryOf (σ'.mem (frameAt (σ'.envs e).envPgdir) (pdx uvpt)) =
      some (frameAt (σ'.envs e).envPgdir, 5#12) := by
  rw [henv]
  constructor
  · intro k hk hu
    rw [hdir k hk, hkern k hk]
    exact h.copy e he k hk hu
  · rw [hdir _ (by decide)]
    exact h.own e he

theorem of_keeps (h : Window B σ t) (henv : EnvInv σ efree) (hk : Keeps B σ σ') :
    Window B σ' t := by
  have hkern := hk.upper none B.kernFrame rfl
  apply h.of_kept hkern (hk.upperTable envsSlot _ (by decide) (by decide) h.table)
  intro e he
  have hlive : Live σ e := by rwa [Live, hk.envs] at he
  exact h.copy_of_kept hlive (by rw [hk.envs]) hkern
    (hk.upper (some e) _ (henv.dirFrame_live hlive))

theorem of_envFreed (h : Window B σ t) (henv : EnvInv σ efree) {e : Fin nenv}
    (hf : EnvFreed B 0 e σ free σ' free') : Window B σ' t := by
  have hkern := hf.upper none B.kernFrame rfl
  apply h.of_kept hkern (hf.upperTable envsSlot _ (by decide) (by decide) h.table)
  intro e' he'
  -- the freed environment is not live, and the others keep their directories
  have hne : e' ≠ e := by
    rintro rfl
    rw [Live, hf.envs, Function.update_self] at he'
    exact he' rfl
  have hsame : σ'.envs e' = σ.envs e' := by rw [hf.envs, Function.update_of_ne hne]
  have hlive : Live σ e' := by rwa [Live, hsame] at he'
  exact h.copy_of_kept hlive (by rw [hsame]) hkern
    (hf.upper (some e') _ (henv.dirFrame_live hlive))

/-- A new environment gets a copy, in a page that nothing refers to. -/
theorem of_envAllocated (h : Window B σ t) (hinv : MemInv B σ free efree) {parentId : Word}
    {e : Fin nenv} {p : ℕ} (hp : p ∈ free) (hal : EnvAllocated B parentId e p σ σ') :
    Window B σ' t := by
  have hm : B.Managed p := hinv.page.free_managed p hp
  have hunref := hinv.page.slot_ne_of_mem hp
  have hkern : σ'.mem B.kernFrame = σ.mem B.kernFrame := hal.other _ hm.ne_kernFrame.symm
  have htab : σ'.mem t = σ.mem t := by
    refine hal.other t fun hc => hunref (.pde none envsSlot) ?_
    rw [← hc]
    exact Separated.slotRef_pde rfl tracked_envsSlot h.table
  refine h.of_kept (fun k _ => by rw [hkern]) htab ?_
  intro e' he'
  by_cases hee : e' = e
  · -- the new directory is the template with its own `UVPT` entry
    subst hee
    have hdir : frameAt (σ'.envs e').envPgdir = p := by
      rw [hal.envs, Function.update_self]
      exact hm.frameAt_kva
    rw [hdir, hal.dir]
    constructor
    · intro k hk hu
      rw [Function.update_of_ne hu, hkern]
    · rw [Function.update_self, BitVec.or_assoc, BitVec.or_comm pteP, ← BitVec.or_assoc,
        entryOf_page2pa hm.lt_pow (by decide)]
      rfl
  · -- an old directory is referred to, so it is not the page that was free
    have hsame : σ'.envs e' = σ.envs e' := by rw [hal.envs, Function.update_of_ne hee]
    have hlive : Live σ e' := by rwa [Live, hsame] at he'
    have hne : frameAt (σ.envs e').envPgdir ≠ p := fun hc => hunref (.dir e') (by
      rw [slotRef_dir, hinv.env.dirFrame_live hlive, hc])
    exact h.copy_of_kept hlive (by rw [hsame]) (fun k _ => by rw [hkern])
      fun k _ => by rw [hal.other _ hne]

theorem step (h : Window B σ t) (hinv : MemInv B σ free efree) {op : MemOp}
    (hs : UserStep B σ op σ') : Window B σ' t := by
  obtain hk | ⟨parentId, e, p, hp, hal⟩ | ⟨e, free', hf⟩ := hs.effect hinv
  · exact h.of_keeps hinv.env hk
  · exact h.of_envAllocated hinv hp hal
  · exact h.of_envFreed hinv.env hf

end Window

/-- The invariant of the runs after `mem_init` and `env_init`. -/
def UpperInv (B : Boot) (σ : State) : Prop :=
  ∃ t free efree, MemInv B σ free efree ∧ Window B σ t

theorem UpperInv.step {op : MemOp} (h : UpperInv B σ) (hs : UserStep B σ op σ') :
    UpperInv B σ' := by
  obtain ⟨t, free, efree, hinv, hw⟩ := h
  obtain ⟨free', efree', hinv'⟩ := hs.1.inv hinv
  exact ⟨t, free', efree', hinv', hw.step hinv hs⟩

theorem MemInited.upperInv (h₀ : Booted B σ₀) (h : MemInited B σ₀ σ) : UpperInv B (envInit σ) := by
  obtain ⟨t, free, hmapped⟩ := h.mapped h₀
  exact ⟨t, free, List.finRange nenv, hmapped.inv⟩

/-- The upper half is what `mem_init` made it after every run. -/
theorem MemInited.run (h₀ : Booted B σ₀) (h : MemInited B σ₀ σ) {ops : List MemOp}
    (hrun : Run (UserStep B) (envInit σ) ops σ') : UpperInv B σ' :=
  hrun.invariant (P := UpperInv B) (fun _ _ _ hi hs => hi.step hs) (h.upperInv h₀)

end Jos
