import Jos.Memory.EmptySegment

/-!
# A segment in the window of `UVPT`

The window of `UVPT` shows the page directory of the environment as a page table, so that a page
that `region_alloc` maps there is entered in the page directory: it becomes a page table, with what
was in it. For the last entry below `UTOP` it is the page table of the stack.

`region_alloc` does not clear its pages. If the page has entries left over, these map pages that
the environment has never been given, and that may be on the free list (`loadIcode_window`).
-/

namespace Jos

variable {B : Boot} {σ σ' : State} {cpu c p d q t : ℕ} {e : Fin nenv} {free : List ℕ}
  {efree : List (Fin nenv)} {O : Set ℕ} {va : Word} {u : ℕ × BitVec 12}

/-! ### Mapping a page through any page table -/

/-- The page table is in memory and has nothing for `va`. -/
theorem pageInsert_vacant {pgdir : Word} (pp : ℕ)
    (hu : entryOf (σ.mem (frameAt pgdir) (pdx va)) = some u) (hlt : u.1 < B.npages)
    (hnone : entryOf (σ.mem u.1 (ptx va)) = none) (perm : Word) (cpu : ℕ) :
    pageInsert B cpu pgdir pp va perm σ =
      .ok (0, (σ.incRef pp).setWord u.1 (ptx va) (page2pa pp ||| perm ||| pteP)) := by
  obtain ⟨kva, hwalk, hkva⟩ := pgdirWalk_of_entry (π := u.2) hu hlt true
  have hpte : ¬present ((σ.incRef pp).load (kva, ptx va)) = true := by
    change ¬present (σ.mem (frameAt kva) (ptx va)) = true
    rw [hkva]
    exact not_present_of_entryOf hnone
  simp only [pageInsert, hwalk, ok_bind, pageInsertAt, if_neg hpte]
  rw [← hkva]
  rfl

/-- What mapping a page writes, and that it takes the first free page. -/
structure Entered (σ : State) (free : List ℕ) (p f : ℕ) (k : Fin 1024) (σ' : State) : Prop where
  chain : Chain σ'.link σ'.pageFreeList free
  mem : σ'.mem = Function.update σ.mem f
    (Function.update (σ.mem f) k (page2pa p ||| (pteW ||| pteU) ||| pteP))
  envs : σ'.envs = σ.envs
  cpus : σ'.cpus = σ.cpus

/-- `region_alloc` for one page. -/
theorem regionAllocLoop_vacant (va : Word) (hfree : Chain σ.link σ.pageFreeList (p :: free))
    (hu : entryOf (σ.mem (frameAt (σ.envs e).envPgdir) (pdx va)) = some u) (hlt : u.1 < B.npages)
    (hnone : entryOf (σ.mem u.1 (ptx va)) = none) (cpu : ℕ) :
    ∃ σ', regionAllocLoop B cpu e 1 va σ = .ok σ' ∧ Entered σ free p u.1 (ptx va) σ' := by
  set σ₁ : State := { σ.setLink p none with pageFreeList := σ.link p } with hσ₁
  have halloc : pageAlloc B 0#32 σ = .ok (some p, σ₁) := by
    rw [pageAlloc, hfree.head_eq]
    exact if_neg (not_not.mpr BitVec.zero_and)
  have hinsert := pageInsert_vacant (σ := σ₁) p hu hlt hnone (pteW ||| pteU) cpu
  refine ⟨(σ₁.incRef p).setWord u.1 (ptx va) (page2pa p ||| (pteW ||| pteU) ||| pteP), ?_, ?_, rfl,
    rfl, rfl⟩
  · simp only [regionAllocLoop, halloc, ok_bind]
    rw [show (σ₁.envs e).envPgdir = (σ.envs e).envPgdir from rfl, hinsert]
    rfl
  · change Chain ((σ.setLink p none).incRef p).link (σ.link p) free
    rw [State.incRef, link_setRef, link_setLink]
    exact hfree.pop

/-! ### Counting the references -/

/-- A page table that is written in place of none adds the references of its entries. -/
theorem refs_placed {i : Fin 1024} (h : Separated B σ) (hd : dirFrame B σ (some e) = some d)
    (hp : ∀ s, slotRef B σ s ≠ some p) (hpk : p ≠ B.kernFrame)
    (hdirs : ∀ a, dirFrame B σ' a = dirFrame B σ a)
    (hmem : ∀ f, f ≠ d → f ≠ p → σ'.mem f = σ.mem f) (hdir : ∀ k, k ≠ i → σ'.mem d k = σ.mem d k)
    (q : ℕ) : refs B σ' q ≤ refs B σ q + 1025 := by
  set t : Finset Slot := insert (.pde (some e) i) (Finset.univ.image fun j => .pte (some e) i j)
    with ht
  have hcard : t.card ≤ 1025 := by
    refine (Finset.card_insert_le _ _).trans (Nat.succ_le_succ ?_)
    exact Finset.card_image_le.trans (by rw [Finset.card_univ, Fintype.card_fin])
  refine (refCount_le_add_card t (fun s hs => ?_) q).trans (Nat.add_le_add_left hcard _)
  rw [ht, Finset.mem_insert, Finset.mem_image, not_or] at hs
  obtain ⟨hpde, hpte⟩ := hs
  -- the entries of the directories, but for the one that has been written
  have hentry (a : Space) (d' : ℕ) (hd' : dirFrame B σ a = some d') (k : Fin 1024)
      (hk : ¬(a = some e ∧ k = i)) : σ'.mem d' k = σ.mem d' k := by
    by_cases hdd : d' = d
    · subst hdd
      obtain rfl := h.dirFrame_inj hd hd'
      exact hdir k fun hc => hk ⟨rfl, hc⟩
    · refine congrFun (hmem d' hdd ?_) k
      rintro rfl
      cases a with
      | none => exact hpk (Option.some.inj hd').symm
      | some e' => exact hp (.dir e') (by rw [slotRef_dir, hd'])
  unfold slotRef
  congr 1
  cases s with
  | dir e' => simp only [slots, hdirs]
  | pde a k =>
    simp only [slots, hdirs]
    split
    · refine Option.bind_congr fun d' hd' => ?_
      rw [hentry a d' hd' k fun hc => hpde (by rw [hc.1, hc.2])]
    · rfl
  | pte a k j =>
    simp only [slots, hdirs]
    split
    · next hk =>
      refine Option.bind_congr fun d' hd' => ?_
      rw [hentry a d' hd' k fun hc => hpte ⟨j, Finset.mem_univ j, by rw [hc.1, hc.2]⟩]
      refine Option.bind_congr fun u hu => ?_
      have href : slotRef B σ (.pde a k) = some u.1 :=
        Separated.slotRef_pde hd' (tracked_of_lt hk a) hu
      rw [hmem u.1 (fun hc => h.dirFrame_ne hd (s := .pde a k) (by simp) (by rw [href, hc]))
        fun hc => hp _ (by rw [href, hc])]
    · rfl

/-! ### The program -/

/-- The segment begins inside the page of the window that shows the last directory entry below
`UTOP`. -/
def windowVa : Word := 0xEF7BA800#32

/-- That is the entry of the page table of the stack. -/
theorem windowVa_entry : pdx (roundDown windowVa pgsize) = pdx uvpt ∧
    ptx (roundDown windowVa pgsize) = pdx (ustacktop - pgsize) := by decide

/-- What `load_icode` has done with this segment: the page `p` has become the page table of the
stack, with what was in it, and has got the page `q` for the stack. -/
structure WindowLoaded (B : Boot) (e : Fin nenv) (p q : ℕ) (free : List ℕ) (σ σ' : State) :
    Prop where
  chain : Chain σ'.link σ'.pageFreeList free
  dir : entryOf (σ'.mem (frameAt (σ.envs e).envPgdir) (pdx (ustacktop - pgsize))) = some (p, 7#12)
  otherPde : ∀ k, k ≠ pdx (ustacktop - pgsize) →
    σ'.mem (frameAt (σ.envs e).envPgdir) k = σ.mem (frameAt (σ.envs e).envPgdir) k
  table : σ'.mem p = Function.update (σ.mem p) (ptx (ustacktop - pgsize))
    (page2pa q ||| (pteW ||| pteU) ||| pteP)
  other : ∀ f, f ≠ frameAt (σ.envs e).envPgdir → f ≠ p → σ'.mem f = σ.mem f
  dirs : ∀ a, dirFrame B σ' a = dirFrame B σ a
  pgdir : (σ'.envs e).envPgdir = (σ.envs e).envPgdir
  live : Live σ' e

/-- `load_icode` returns. -/
theorem LoadInv.loadIcode_window {image : Word → Byte} (cpu : ℕ)
    (h : LoadInv B e O c efree σ (p :: q :: free) ∅) (hw : Window B σ t)
    (himage : EmptySegment image windowVa)
    (hread : entryOf (σ.mem (pgnum (σ.cpus cpu).cr3) 960) = none)
    (hp : entryOf (σ.mem p (ptx (ustacktop - pgsize))) = none) :
    ∃ σ', loadIcode (imageVariables image) B cpu e 0xF0108000#32 σ =
        ⟨emptyActions windowVa, .ok σ'⟩ ∧ WindowLoaded B e p q free σ σ' := by
  set d := frameAt (σ.envs e).envPgdir with hd
  have hdm : B.Managed d := h.page.slot_managed (.dir e) d (by rw [slotRef_dir, h.dir])
  have hpm : B.Managed p := h.page.free_managed p List.mem_cons_self
  have hpd : p ≠ d := h.page.dirFrame_ne_of_mem h.dir List.mem_cons_self
  obtain ⟨hpdx, hptx⟩ := windowVa_entry
  -- the directory has no page table for the stack yet
  have hvacant : entryOf (σ.mem d (pdx (ustacktop - pgsize))) = none := by
    have hpde := h.loaded.pde (pdx (ustacktop - pgsize)) (by decide)
    rwa [if_neg (by simp [tablesOf]), Option.map_eq_none_iff,
      slots_pde h.dir (tracked_of_lt (by decide) _)] at hpde
  have hown : entryOf (σ.mem d 960) = none := by
    rw [hd, hw.copy e h.live 960 (by decide) (by decide)]
    exact hw.nothing 960 (by decide) (by decide)
  -- the page `p` is entered in the directory
  obtain ⟨σ₁, hregion, henter₁⟩ := regionAllocLoop_vacant (B := B) (e := e) (u := (d, 5#12))
    (σ := lcr3 cpu ((σ.envs e).envPgdir - kernbase) σ) (roundDown windowVa pgsize) h.page.chain
    (by rw [hpdx]; exact hw.own e h.live) hdm.1 (by rw [hptx]; exact hvacant) cpu
  have hmem₁ : σ₁.mem = Function.update σ.mem d (Function.update (σ.mem d)
      (pdx (ustacktop - pgsize)) (page2pa p ||| (pteW ||| pteU) ||| pteP)) := by
    rw [henter₁.mem, hptx]
    rfl
  have hdir₁ : entryOf (σ₁.mem d (pdx (ustacktop - pgsize))) = some (p, 7#12) := by
    rw [hmem₁, Function.update_self, Function.update_self, entryOf_page2pa hpm.lt_pow (by decide)]
    rfl
  have hotherPde₁ (k : Fin 1024) (hk : k ≠ pdx (ustacktop - pgsize)) : σ₁.mem d k = σ.mem d k := by
    rw [hmem₁, Function.update_self, Function.update_of_ne hk]
  have hother₁ (f : ℕ) (hf : f ≠ d) : σ₁.mem f = σ.mem f := by
    rw [hmem₁, Function.update_of_ne hf]
  have hrun := himage.loadIcode_eq (h.env.pgdir e h.live) hread hown hregion
    (by rw [← hd, hotherPde₁ 960 (by decide)]; exact hown)
  -- and is the page table of the stack from then on
  have hlive₁ : Live σ₁ e := by
    rw [Live, henter₁.envs]
    exact h.live
  have hsame := sameSpaces_setEntry hlive₁ cpu (imageValue image 0xF0108018#32 4)
    (B.kernPgdir - kernbase)
  set σ₂ := lcr3 cpu (B.kernPgdir - kernbase) (setEntry e (imageValue image 0xF0108018#32 4) σ₁)
    with hσ₂
  have hpgdir₂ : (σ₂.envs e).envPgdir = (σ.envs e).envPgdir := by
    rw [hsame.pgdir, henter₁.envs]
    rfl
  obtain ⟨σ', hstack, henter⟩ := regionAllocLoop_vacant (B := B) (e := e) (u := (p, 7#12))
    (σ := σ₂) (ustacktop - pgsize) henter₁.chain
    (by rw [hpgdir₂, hsame.mem]; exact hdir₁) hpm.1
    (by rw [hsame.mem, hother₁ p hpd]; exact hp) cpu
  rw [regionAlloc_stack, hstack] at hrun
  refine ⟨σ', hrun, henter.chain, ?_, fun k hk => ?_, ?_, fun f hfd hfp => ?_, fun a => ?_, ?_, ?_⟩
  · rw [henter.mem, Function.update_of_ne hpd.symm, hsame.mem]
    exact hdir₁
  · rw [henter.mem, Function.update_of_ne hpd.symm, hsame.mem]
    exact hotherPde₁ k hk
  · rw [henter.mem, Function.update_self, hsame.mem, hother₁ p hpd]
  · rw [henter.mem, Function.update_of_ne hfp, hsame.mem, hother₁ f hfd]
  · rw [dirFrame_congr henter.envs, hsame.dirFrame, dirFrame_congr henter₁.envs]
    rfl
  · rw [henter.envs, hpgdir₂]
  · rw [Live, henter.envs]
    exact hsame.live_iff.mpr hlive₁

/-- Afterwards there are as many more references as a page table has entries, and one. -/
theorem WindowLoaded.refs_le (h : WindowLoaded B e p q free σ σ')
    (hinv : PageInv B σ 0 (p :: q :: free))
    (hd : dirFrame B σ (some e) = some (frameAt (σ.envs e).envPgdir)) (r : ℕ) :
    refs B σ' r ≤ refs B σ r + 1025 :=
  refs_placed hinv.separated hd (hinv.slot_ne_of_mem List.mem_cons_self)
    (hinv.free_managed p List.mem_cons_self).ne_kernFrame h.dirs h.other h.otherPde r

/-! ### A machine with such pages -/

/-- A word that looks like an entry of a page table: it maps page `i` for user code. -/
def staleWord (i : Fin 1024) : Word :=
  if i.val < 160 then page2pa i.val ||| (pteW ||| pteU) ||| pteP else 0#32

theorem entryOf_staleWord (i : Fin 1024) :
    entryOf (staleWord i) = if i.val < 160 then some (i.val, 7#12) else none := by
  unfold staleWord
  split
  · rw [entryOf_page2pa (by omega) (by decide)]
    rfl
  · exact entryOf_zero

/-- Memory in which all pages begin with 160 such words. -/
def staleMemory : State := { smallMemory with
  mem := Function.update (fun _ => staleWord) smallMachine.kernFrame
    (smallMemory.mem smallMachine.kernFrame) }

theorem staleMemory_mem {f : ℕ} (hf : f ≠ smallMachine.kernFrame) :
    staleMemory.mem f = staleWord := by
  simp only [staleMemory, Function.update_of_ne hf]

theorem staleMemory_booted : Booted smallMachine staleMemory :=
  ⟨fun _ => rfl, rfl, by
    simp only [staleMemory, Function.update_self]
    exact smallMemory_booted.kernDir, fun _ => rfl, rfl⟩

/-- The small machine with this memory at the end of `mem_init`: whichever the first three free
pages are, one of the pages that are mapped in the third is free, and none of these three. -/
theorem staleMachine_ready : ∃ σ t d p q free efree j, MemInited smallMachine staleMemory σ ∧
    MemInv smallMachine (envInit σ) (d :: p :: q :: free) (0 :: efree) ∧
    Window smallMachine (envInit σ) t ∧ (∀ r, refs smallMachine (envInit σ) r ≤ 1) ∧
    (∀ c, (envInit σ).curenv c = none) ∧ (envInit σ).mem p = staleWord ∧ j ∈ free ∧ j < 160 := by
  have hm (r : ℕ) (h0 : r ≠ 0) (hr : r < 160) : smallMachine.Managed r :=
    (smallMachine_managed_iff r).mpr (by omega)
  obtain ⟨σ, t, hinit, htable, hmem, hcur⟩ :=
    staleMemory_booted.memInited_mem (hm 1 (by decide) (by decide))
  obtain ⟨t', free, hmapped⟩ := hinit.mapped staleMemory_booted
  obtain ⟨rfl, -⟩ := Prod.mk.inj (Option.some.inj (htable.symm.trans hmapped.table))
  obtain ⟨hinv, hw⟩ := hmapped.inv
  obtain ⟨efree, hefree⟩ : ∃ efree, List.finRange nenv = 0 :: efree := ⟨_, List.finRange_succ⟩
  rw [hefree] at hinv
  have hsub : (Finset.Ico 1 160).erase t ⊆ free.toFinset := fun r hr => by
    obtain ⟨hne, hr⟩ := Finset.mem_erase.mp hr
    rw [Finset.mem_Ico] at hr
    exact List.mem_toFinset.mpr ((hmapped.mem_free r).mpr ⟨hm r (by omega) hr.2, hne⟩)
  have hcard : (Finset.Ico 1 160).card - 1 ≤ ((Finset.Ico 1 160).erase t).card :=
    Finset.pred_card_le_card_erase
  have hlen : 3 ≤ free.length := by
    have hle := (Finset.card_le_card hsub).trans (List.toFinset_card_le free)
    rw [Nat.card_Ico] at hcard
    omega
  obtain ⟨d, p, q, free, rfl⟩ : ∃ d p q rest, free = d :: p :: q :: rest := by
    match free, hlen with
    | d :: p :: q :: rest, _ => exact ⟨d, p, q, rest, rfl⟩
  -- of more than three pages one is left
  obtain ⟨j, hj, hleft⟩ : ∃ j ∈ (Finset.Ico 1 160).erase t, j ∉ ({d, p, q} : Finset ℕ) := by
    refine Finset.exists_mem_notMem_of_card_lt_card (Finset.card_le_three.trans_lt ?_)
    rw [Nat.card_Ico] at hcard
    omega
  have hpm := hmapped.page.free_managed p (by simp)
  have hpt : p ≠ t := ((hmapped.mem_free p).mp (by simp)).2
  refine ⟨σ, t, d, p, q, free, efree, j, hinit, hinv, hw, hmapped.refs_le, fun c => ?_, ?_, ?_, ?_⟩
  · rw [State.curenv, (envInit_inited σ).cpus]
    exact hcur c
  · rw [(envInit_inited σ).mem]
    exact (hmem p hpt hpm.ne_kernFrame).trans (staleMemory_mem hpm.ne_kernFrame)
  · have hfree := List.mem_toFinset.mp (hsub hj)
    simp only [Finset.mem_insert, Finset.mem_singleton, not_or] at hleft
    simpa [hleft] using hfree
  · exact (Finset.mem_Ico.mp (Finset.mem_erase.mp hj).2).2

end Jos
