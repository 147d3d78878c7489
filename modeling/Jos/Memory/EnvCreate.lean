import Jos.Memory.LoadExhaust

/-!
# `env_create`

`env_create` gives a new environment a page directory, the pages of its segments and a page for
its stack. No return value is looked at on the way. When `env_alloc` has failed, there is no page
for the stack either, and `region_alloc` panics. When a segment has lost a page for want of a page
table, the same happens. But nothing is allocated after the stack: if the page of the stack is
lost, `env_create` returns an environment without a stack.

`placeEnv_loads_iff` says that this is the only way in which `env_create` returns without having
loaded everything, and with how many free pages it happens.
-/

namespace Jos

variable {B : Boot} {σ σ' : State} {cpu c : ℕ} {e : Fin nenv} {free : List ℕ}
  {efree : List (Fin nenv)} {O : Set ℕ} {M : Finset ℕ} {va : Word}

/-! ### The new environment -/

/-- The entry point and `cr3` are no matter of address spaces. -/
theorem sameSpaces_setEntry (h : Live σ e) (cpu : ℕ) (entry pa : Word) :
    SameSpaces σ (lcr3 cpu pa (setEntry e entry σ)) := by
  have hentry : SameSpaces σ (setEntry e entry σ) := .setEnv h h rfl rfl
  have hback : SameSpaces (setEntry e entry σ) (lcr3 cpu pa (setEntry e entry σ)) := .cpus rfl
  exact hentry.trans hback

theorem LoadInv.of_sameSpaces (h : LoadInv B e O c efree σ free M) (hs : SameSpaces σ σ') :
    LoadInv B e O c efree σ' free M where
  toMemInv := hs.memInv h.toMemInv
  live := hs.live_iff.mpr h.live
  loaded := by
    rw [hs.slots]
    exact h.loaded
  count := h.count

/-- A free slot of `envs` has nothing. -/
theorem loaded_of_free (he : (σ.envs e).envStatus = .free) (hO : ∀ q ∈ O, q ∈ free) :
    Loaded e O (slots B σ) free ∅ ∅ := by
  have hnone (s : Slot) (hs : s.owner = some e) : slots B σ s = none :=
    slots_of_dirFrame_none (by rw [hs, dirFrame_free he])
  refine ⟨fun i j => ?_, fun i _ => ?_, fun s p hs hp => ?_, fun q hq hnot => ?_⟩
  · rw [hnone _ rfl, if_neg (Finset.notMem_empty _)]
    rfl
  · rw [hnone _ rfl, if_neg (Finset.notMem_empty _)]
    rfl
  · rw [hnone s hs] at hp
    cases hp
  · exact absurd (hO q hq) hnot

/-- A new environment has its page directory. -/
theorem LoadInv.of_envAllocated {p : ℕ} {rest : List (Fin nenv)} {parentId : Word}
    (h : MemInv B σ (p :: free) (e :: rest)) (h' : MemInv B σ' free rest)
    (hal : EnvAllocated B parentId e p σ σ') :
    LoadInv B e {q | OnFreeList σ q} free.length rest σ' free ∅ := by
  have hfree : (σ.envs e).envStatus = .free := (h.env.free_iff e).mp List.mem_cons_self
  have hempty : Loaded e {q | OnFreeList σ q} (slots B σ) (p :: free) ∅ ∅ :=
    loaded_of_free hfree fun q hq => (h.page.onFreeList_iff q).mp hq
  have hunref : refs B σ p = 0 := by
    have h0 := h.page.free_unref p List.mem_cons_self
    rwa [Pi.zero_apply, add_zero] at h0
  have hdir : slots B σ (.dir e) = none := slots_of_dirFrame_none (dirFrame_free hfree)
  have hrest (q : ℕ) (hq : q ∈ p :: free) : q ∈ free ∨ q = p := (List.mem_cons.mp hq).symm
  -- the first slot of the environment is that of its page directory
  obtain ⟨hsole, hheld⟩ := hempty.fill (s := .dir e) (π := 0#12) rfl hunref hrest fun q hq => by
    rw [hdir] at hq
    cases hq
  rw [← hal.slots] at hsole hheld
  refine ⟨h', hal.live, ⟨fun i j => ?_, fun i hi => ?_, hsole, hheld⟩, rfl⟩
  · rw [hal.slots, Function.update_of_ne (by simp)]
    exact hempty.pte i j
  · rw [hal.slots, Function.update_of_ne (by simp)]
    exact hempty.pde i hi

/-- A page of the environment is counted once. -/
theorem LoadInv.ref_eq_one (h : LoadInv B e O c efree σ free M) {s : Slot} {p : ℕ}
    (hs : s.owner = some e) (href : slotRef B σ s = some p) : σ.ref p = 1#16 := by
  have hone : refs B σ p = 1 := h.loaded.sole s p hs href
  have hcount := h.page.count p (h.page.slot_managed s p href)
  rw [Pi.zero_apply, Nat.add_zero] at hcount
  rw [hcount, ← hone, refs]

/-- User code can write to the pages that are mapped. -/
theorem LoadInv.permitted (h : LoadInv B e O c efree σ free M) (hva : va < utop)
    (hmem : pgnum va ∈ M) : Permitted σ e (pteU ||| pteW ||| pteP) va := by
  obtain ⟨p, htr, -⟩ := h.translate_eq hva hmem
  exact ⟨tablePerm, 7#12, p, htr, by decide, by decide⟩

/-- Without a page table there is no access. -/
theorem not_permitted_of_none {perm : Word}
    (h : entryOf (σ.mem (frameAt (σ.envs e).envPgdir) (pdx va)) = none) :
    ¬Permitted σ e perm va := by
  rintro ⟨π₁, π₂, p, htr, -, -⟩
  rw [translate, x86Walk, h] at htr
  cases htr

section Create

variable {image : Word → Byte} {binary : Word}

/-- What `env_create` promises about the new environment `e`. -/
structure FullyLoaded (B : Boot) (e : Fin nenv) (l : List Proghdr) (σ σ' : State) : Prop where
  /-- The pages of every segment are mapped for reading and writing. -/
  segments : ∀ ph ∈ l, ∀ a : Word, pgnum a ∈ segmentPages ph →
    Permitted σ' e (pteU ||| pteW ||| pteP) a
  /-- So is the stack. -/
  stack : ∀ a : Word, pgnum a = pgnum (ustacktop - pgsize) →
    Permitted σ' e (pteU ||| pteW ||| pteP) a
  /-- Every page that was taken off the free list belongs to the environment. -/
  pages : ∀ p, OnFreeList σ p → ¬OnFreeList σ' p →
    σ'.ref p = 1#16 ∧ ∃ s : Slot, s.owner = some e ∧ slotRef B σ' s = some p

/-- The one amount of free memory with which a page gets lost: it is enough for the page
directory, for the segments with their page tables and for the page of the stack, and not for the
page table of the stack, which is not one of those before. (With its page directory at or above
256 MB an environment is not created at all.) -/
def LosesPage (l : List Proghdr) (free : List ℕ) : Prop :=
  free.length = (programPages l).card + (tablesOf (programPages l)).card + 2 ∧
    (pdx (ustacktop - pgsize)).val ∉ tablesOf (programPages l) ∧
    ∀ p, free.head? = some p → p < 65536

/-- `region_alloc` for the stack has one page to map. -/
theorem regionAlloc_stack (B : Boot) (cpu : ℕ) (e : Fin nenv) (σ : State) :
    regionAlloc B cpu e (ustacktop - pgsize) pgsize σ =
      Jos.regionAllocLoop B cpu e 1 (ustacktop - pgsize) σ := by
  have hpages : regionPages (ustacktop - pgsize) pgsize = 1 := by decide
  have hdown : roundDown (ustacktop - pgsize) pgsize = ustacktop - pgsize := by decide
  rw [regionAlloc, hpages, hdown]

/-- It returns only when there is a page. -/
theorem pageFreeList_of_stack (h : regionAlloc B cpu e (ustacktop - pgsize) pgsize σ = .ok σ') :
    σ.pageFreeList ≠ none := by
  intro hnone
  rw [regionAlloc_stack] at h
  cases (regionAllocLoop_none hnone h).1

/-- With no page left for the stack `load_icode` panics. -/
theorem placeImage_none (h : σ.pageFreeList = none) :
    Jos.placeImage B cpu e image binary σ ≠ .ok σ' := by
  intro hrun
  obtain ⟨pa, -, hrun⟩ := bind_eq_ok.mp hrun
  obtain ⟨σ₁, hsegments, hrun⟩ := bind_eq_ok.mp hrun
  obtain ⟨pa', -, hrun⟩ := bind_eq_ok.mp hrun
  have hstart : (lcr3 cpu pa σ).pageFreeList = none := h
  have hnone : σ₁.pageFreeList = none := placeSegments_none hstart hsegments
  exact pageFreeList_of_stack hrun hnone

/-- How `load_icode` ends when the segments have the pages `P`: the stack is mapped as well; or
its page is lost, and there is no page table for it; or there is a panic. -/
def StackOutcome (B : Boot) (e : Fin nenv) (O : Set ℕ) (c : ℕ) (efree : List (Fin nenv))
    (P : Finset ℕ) (r : Except Panic State) : Prop :=
  (∃ σ' free', r = .ok σ' ∧
    LoadInv B e O c efree σ' free' (insert (pgnum (ustacktop - pgsize)) P)) ∨
  (∃ σ', r = .ok σ' ∧ c = P.card + (tablesOf P).card + 1 ∧
    (pdx (ustacktop - pgsize)).val ∉ tablesOf P ∧
    entryOf (σ'.mem (frameAt (σ'.envs e).envPgdir) (pdx (ustacktop - pgsize))) = none) ∨
  ((∀ σ', r ≠ .ok σ') ∧ c ≤ P.card + (tablesOf P).card)

/-- The last `region_alloc`. -/
theorem LoadInv.stackAlloc (h : LoadInv B e O c efree σ free M) (cpu : ℕ) :
    StackOutcome B e O c efree M (Jos.regionAlloc B cpu e (ustacktop - pgsize) pgsize σ) := by
  have hstack : ustacktop - pgsize < utop := by decide
  have hcount := h.count
  rw [regionAlloc_stack]
  obtain ⟨rfl, herror⟩ | ⟨σ', free', hrun, h'⟩ | ⟨p, σ', rfl, hnew, hrun, -, hslots, hkeeps⟩ :=
    h.allocPage hstack cpu 0
  · -- no page
    rw [List.length_nil] at hcount
    refine Or.inr (Or.inr ⟨fun σ' hok => ?_, by omega⟩)
    rw [herror] at hok
    cases hok
  · exact Or.inl ⟨σ', free', hrun, h'⟩
  · -- a page and no page table: it was not there, and it is not there now
    rw [List.length_singleton] at hcount
    refine Or.inr (Or.inl ⟨σ', hrun, by omega, hnew, ?_⟩)
    have hd : dirFrame B σ' (some e) = some (frameAt (σ'.envs e).envPgdir) := by
      rw [hkeeps.dirFrame, hkeeps.envs]
      exact h.env.dirFrame_live h.live
    have hloaded := h.loaded
    rw [← hslots] at hloaded
    by_contra hc
    exact hnew ((hloaded.mem_tables_iff hd ((lt_utop_iff _).mp hstack)).mpr hc)

/-- The ways through `load_icode`. -/
theorem LoadInv.placeImage (h : LoadInv B e O c efree σ free ∅) (himage : Loadable image binary)
    (cpu : ℕ) : StackOutcome B e O c efree (programPages (proghdrs image binary))
      (Jos.placeImage B cpu e image binary σ) := by
  have hpa := paddr_eq_ok.mpr ⟨h.env.pgdir e h.live, rfl⟩
  have hkern := paddr_eq_ok.mpr ⟨kernbase_le_kernPgdir B, rfl⟩
  -- the segments are written through the new page directory
  have hload : LoadInv B e O c efree (lcr3 cpu ((σ.envs e).envPgdir - kernbase) σ) free ∅ :=
    h.of_sameSpaces (.cpus rfl)
  have hcr3 : InCr3 cpu e (lcr3 cpu ((σ.envs e).envPgdir - kernbase) σ) := by
    simp only [InCr3, lcr3, State.setCpu, Function.update_self, frameAt]
  have hsegments := hload.placeSegments hcr3 image binary himage
  rw [Finset.empty_union] at hsegments
  rw [Jos.placeImage, hpa, ok_bind]
  simp only [hkern, ok_bind]
  obtain ⟨σ₁, free₁, hrun, h₁, -⟩ | ⟨hnone, hused⟩ := hsegments
  · rw [hrun, ok_bind]
    set entry := imageValue image (binary + 24#32) 4
    exact (h₁.of_sameSpaces (sameSpaces_setEntry h₁.live _ entry _)).stackAlloc cpu
  · -- a segment has used up the pages, and there is none for the stack
    refine Or.inr (Or.inr ⟨fun σ' hok => ?_, hused⟩)
    obtain ⟨σ₁, hrun, hstack⟩ := bind_eq_ok.mp hok
    exact pageFreeList_of_stack hstack (hnone σ₁ hrun)

theorem mem_programPages {l : List Proghdr} {n : ℕ} :
    n ∈ programPages l ↔ ∃ ph ∈ l, n ∈ segmentPages ph := by
  induction l with
  | nil => simp [programPages]
  | cons ph l ih =>
    rw [programPages, List.foldr_cons, Finset.mem_union, List.exists_mem_cons_iff, ← ih]
    rfl

/-- When everything is mapped, the promise is kept. -/
theorem LoadInv.fullyLoaded {l : List Proghdr} (hl : ∀ ph ∈ l, ph.pType = elfProgLoad →
      ph.pVa.toNat + ph.pMemsz.toNat ≤ utop.toNat)
    (h : LoadInv B e {q | OnFreeList σ q} c efree σ' free
      (insert (pgnum (ustacktop - pgsize)) (programPages l))) : FullyLoaded B e l σ σ' := by
  have htop : utop.toNat = 955 * 1024 * 4096 := rfl
  refine ⟨fun ph hph a ha => ?_, fun a ha => ?_, fun p hp hnot => ?_⟩
  · -- the segments end below `UTOP`, and so do their pages
    have hmem : pgnum a ∈ programPages l := mem_programPages.mpr ⟨ph, hph, ha⟩
    refine h.permitted ?_ (Finset.mem_insert_of_mem hmem)
    unfold segmentPages at ha
    split at ha
    · next htype =>
      have hend := hl ph hph htype
      rw [Finset.mem_Ico, pgnum_eq] at ha
      rw [BitVec.lt_def]
      omega
    · exact absurd ha (Finset.notMem_empty _)
  · refine h.permitted ?_ (by rw [ha]; exact Finset.mem_insert_self _ _)
    rw [pgnum_eq, pgnum_eq, show (ustacktop - pgsize).toNat = 0xEEBFD000 from rfl] at ha
    rw [BitVec.lt_def]
    omega
  · -- a page that is not free any more is in a slot of the environment, and in no other
    have hfree : p ∉ free := fun hc => hnot ((h.page.onFreeList_iff p).mpr hc)
    obtain ⟨s, hs, href⟩ := h.loaded.held p hp hfree
    exact ⟨h.ref_eq_one hs href, s, hs, href⟩

/-- With the page directory below 256 MB, `env_create` goes on with `load_icode`. -/
theorem MemInv.placeEnv_of_lt {p : ℕ} {rest : List (Fin nenv)}
    (h : MemInv B σ (p :: free) (e :: rest)) (hp : p < 65536) (cpu : ℕ)
    (uninit : Option (Fin nenv)) (image : Word → Byte) (binary : Word) (type : EnvType) :
    ∃ σ₁, placeEnv B cpu uninit image binary type σ = placeImage B cpu e image binary σ₁ ∧
      LoadInv B e {q | OnFreeList σ q} free.length rest σ₁ free ∅ := by
  obtain ⟨r, ne, σ₁, halloc⟩ := envAlloc_of_lt h.page h.env hp 0#32
  obtain ⟨hc, -⟩ | ⟨hc, -⟩ | ⟨e', rest', p', free', he, hp', rfl, rfl, hinv, henv, hlow, hal⟩ :=
    envAlloc_ok h.page h.env h.low halloc
  · cases hc
  · cases hc
  · obtain ⟨rfl, rfl⟩ := List.cons.inj he
    obtain ⟨rfl, rfl⟩ := List.cons.inj hp'
    have hstart := LoadInv.of_envAllocated h (h.of_envAllocated hinv henv hlow hal) hal
    refine ⟨_, ?_, hstart.of_sameSpaces (.setEnv hal.live hal.live rfl rfl)⟩
    rw [placeEnv, halloc, ok_bind]
    rfl

/-- Without a page, or with one at or above 256 MB, it panics. -/
theorem MemInv.placeEnv_panics {rest : List (Fin nenv)} (h : MemInv B σ free (e :: rest))
    (hp : ∀ p, free.head? = some p → 65536 ≤ p) (cpu : ℕ)
    (uninit : Option (Fin nenv)) (image : Word → Byte) (binary : Word) (type : EnvType)
    (σ' : State) : placeEnv B cpu uninit image binary type σ ≠ .ok σ' := by
  intro hrun
  obtain ⟨⟨r, ne, σ₁⟩, halloc, hload⟩ := bind_eq_ok.mp hrun
  obtain ⟨hc, -⟩ | ⟨rfl, -, rfl, rfl⟩ | ⟨e', rest', p, free', -, rfl, -, -, -, -, -, hal⟩ :=
    envAlloc_ok h.page h.env h.low halloc
  · cases hc
  · -- `env_alloc` has failed, and whatever `e` is now, there is no page for its stack
    have hnone : σ₁.pageFreeList = none := h.page.chain.head_none_iff.mpr rfl
    cases uninit with
    | none => cases hload
    | some e' => exact placeImage_none (σ := σ₁.setEnv e' _) hnone hload
  · -- `PADDR` has accepted the page directory
    have hm : B.Managed p := h.page.free_managed p List.mem_cons_self
    have hlt := (kernbase_le_page2pa_iff (hm.1.trans_le B.npages_le)).mp hal.high
    exact absurd (hp p rfl) (by omega)

/-- The ways through `env_create`. -/
theorem MemInv.placeEnv_cases {rest : List (Fin nenv)} (h : MemInv B σ free (e :: rest))
    (himage : Loadable image binary) (cpu : ℕ) (uninit : Option (Fin nenv)) (type : EnvType) :
    (∃ σ', placeEnv B cpu uninit image binary type σ = .ok σ' ∧
      FullyLoaded B e (proghdrs image binary) σ σ' ∧ ¬LosesPage (proghdrs image binary) free) ∨
    (∃ σ', placeEnv B cpu uninit image binary type σ = .ok σ' ∧
      LosesPage (proghdrs image binary) free ∧
      ¬Permitted σ' e (pteU ||| pteW ||| pteP) (ustacktop - pgsize)) ∨
    ((∀ σ', placeEnv B cpu uninit image binary type σ ≠ .ok σ') ∧
      ((∀ p, free.head? = some p → p < 65536) →
        free.length < (programPages (proghdrs image binary)).card +
          (tablesOf (programPages (proghdrs image binary))).card + 2)) := by
  by_cases hp : ∃ p free', free = p :: free' ∧ p < 65536
  · obtain ⟨p, free, rfl, hlt⟩ := hp
    obtain ⟨σ₁, hrun, h₁⟩ := h.placeEnv_of_lt hlt cpu uninit image binary type
    rw [hrun, List.length_cons]
    obtain ⟨σ', free', hok, h'⟩ | ⟨σ', hok, hcount, hnew, hnone⟩ | ⟨hpanic, hused⟩ :=
      h₁.placeImage himage cpu
    · left
      refine ⟨σ', hok, h'.fullyLoaded fun ph hph htype => (himage ph hph htype).1, ?_⟩
      rintro ⟨hlen, hnew, -⟩
      -- the stack has taken two pages
      have hcount := h'.count
      have htwo := card_insert_new hnew
      rw [List.length_cons] at hlen
      omega
    · -- with the page directory the number of pages is what `LosesPage` says
      right; left
      refine ⟨σ', hok, ⟨?_, hnew, fun q hq => ?_⟩, not_permitted_of_none hnone⟩
      · rw [List.length_cons]
        omega
      · rw [List.head?_cons] at hq
        rwa [← Option.some.inj hq]
    · right; right
      exact ⟨hpanic, fun _ => by omega⟩
  · right; right
    have hhigh (p : ℕ) (hhead : free.head? = some p) : 65536 ≤ p := by
      obtain ⟨free', rfl⟩ := List.head?_eq_some_iff.mp hhead
      exact Nat.not_lt.mp fun hlt => hp ⟨p, free', rfl, hlt⟩
    refine ⟨h.placeEnv_panics hhigh cpu uninit image binary type, fun hlow => ?_⟩
    cases free with
    | nil => exact Nat.succ_pos _
    | cons p free => exact absurd (hlow p rfl) (Nat.not_lt.mpr (hhigh p rfl))

/-- `env_create` panics or loads the whole program, except with the one amount of free memory
with which the page of the stack is lost. -/
theorem placeEnv_loads_iff {rest : List (Fin nenv)} (h : MemInv B σ free (e :: rest))
    (himage : Loadable image binary) (cpu : ℕ) (uninit : Option (Fin nenv)) (type : EnvType) :
    (∀ σ', placeEnv B cpu uninit image binary type σ = .ok σ' →
      FullyLoaded B e (proghdrs image binary) σ σ') ↔ ¬LosesPage (proghdrs image binary) free := by
  obtain ⟨σ', hok, hloaded, hnot⟩ | ⟨σ', hok, hloses, hstack⟩ | ⟨hpanic, hfew⟩ :=
    h.placeEnv_cases himage cpu uninit type
  · refine iff_of_true (fun σ'' hok' => ?_) hnot
    obtain rfl := Except.ok.inj (hok.symm.trans hok')
    exact hloaded
  · refine iff_of_false (fun hall => ?_) (not_not.mpr hloses)
    exact hstack ((hall σ' hok).stack _ rfl)
  · refine iff_of_true (fun σ' hok => absurd hok (hpanic σ')) fun hloses => ?_
    have hlen := hfew hloses.2.2
    rw [hloses.1] at hlen
    exact lt_irrefl _ hlen

end Create

/-! ### The small machine -/

/-- The words of an ELF image: its header and a program header for one segment at `0x800000`,
which has four bytes in the file. -/
def segmentWord (memsz : Word) : ℕ → Word
  | 0 => 0x464C457F#32 -- the magic number
  | 6 => 0x800000#32 -- `e_entry`
  | 7 => 52#32 -- `e_phoff`
  | 11 => 1#32 -- `e_phnum`
  | 13 => elfProgLoad
  | 14 => 84#32 -- `p_offset`
  | 15 => 0x800000#32 -- `p_va`
  | 17 => 4#32 -- `p_filesz`
  | 18 => memsz
  | 21 => 0xFEEB#32 -- a jump to itself
  | _ => 0#32

/-- The image in the memory of the kernel. -/
def segmentImage (memsz a : Word) : Byte :=
  let offset := (a - 0xF0108000#32).toNat
  (segmentWord memsz (offset / 4) >>> (8 * (offset % 4))).setWidth 8

/-- The small machine has 876 free pages when it has been set up, and no processor has an
environment. -/
theorem smallMachine_free_length : ∃ σ free rest, MemInited smallMachine smallMemory σ ∧
    MemInv smallMachine (envInit σ) free (0 :: rest) ∧ free.length = 876 ∧
    (∀ p, free.head? = some p → p < 65536) ∧ ∀ c, (envInit σ).curenv c = none := by
  have hone : smallMachine.Managed 1 := (smallMachine_managed_iff 1).mpr (by decide)
  obtain ⟨σ, -, hinit, -, -, hcur⟩ := smallMemory_booted.memInited_mem hone
  obtain ⟨t, free, hmapped⟩ := hinit.mapped smallMemory_booted
  obtain ⟨hinv, -⟩ := hmapped.inv
  obtain ⟨rest, hrest⟩ : ∃ rest, List.finRange nenv = 0 :: rest := ⟨_, List.finRange_succ⟩
  rw [hrest] at hinv
  have hmanaged (p : ℕ) : smallMachine.Managed p ↔ p ∈ Finset.Ico 1 160 ∪ Finset.Ico 306 1024 := by
    rw [smallMachine_managed_iff, Finset.mem_union, Finset.mem_Ico, Finset.mem_Ico]
  -- every page that can be allocated is free, except for the table of the environments
  have hset : free.toFinset = (Finset.Ico 1 160 ∪ Finset.Ico 306 1024).erase t := by
    ext p
    rw [List.mem_toFinset, hmapped.mem_free, hmanaged, Finset.mem_erase, and_comm]
  have ht : t ∈ Finset.Ico 1 160 ∪ Finset.Ico 306 1024 :=
    (hmanaged t).mp (hmapped.page.slot_managed (.pde none envsSlot) t (by
      rw [slotRef, hmapped.slots, Function.update_self]
      rfl))
  have hdisj : Disjoint (Finset.Ico 1 160) (Finset.Ico 306 1024) := by
    refine Finset.disjoint_left.mpr fun p hlow hhigh => ?_
    rw [Finset.mem_Ico] at hlow hhigh
    omega
  refine ⟨σ, free, rest, hinit, hinv, ?_, fun p hp => ?_, fun c => ?_⟩
  · rw [← List.toFinset_card_of_nodup hmapped.page.chain.nodup, hset, Finset.card_erase_of_mem ht,
      Finset.card_union_of_disjoint hdisj, Nat.card_Ico, Nat.card_Ico]
  · have hmem := hmapped.page.free_managed p (List.mem_of_head? hp)
    exact hmem.1.trans (by decide)
  · rw [State.curenv, (envInit_inited σ).cpus]
    exact hcur c

/-- The pages of a segment at `0x800000` and their page table. -/
theorem programPages_at (offset filesz memsz : Word) {n : ℕ} (hmemsz : memsz.toNat = n * 4096)
    (hn : 0 < n) (hle : n ≤ 1024) :
    (programPages [⟨elfProgLoad, offset, 0x800000#32, filesz, memsz⟩]).card = n ∧
      tablesOf (programPages [⟨elfProgLoad, offset, 0x800000#32, filesz, memsz⟩]) = {2} := by
  have hpages : programPages [⟨elfProgLoad, offset, 0x800000#32, filesz, memsz⟩] =
      Finset.Ico 2048 (2048 + n) := by
    rw [programPages, List.foldr_cons, List.foldr_nil, Finset.union_empty, segmentPages,
      if_pos rfl, hmemsz, show (0x800000#32).toNat = 2048 * 4096 from rfl]
    congr 1
    omega
  rw [hpages]
  refine ⟨by rw [Nat.card_Ico]; omega, ?_⟩
  ext k
  simp only [tablesOf, Finset.mem_image, Finset.mem_Ico, Finset.mem_singleton]
  constructor
  · rintro ⟨m, hm, hk⟩
    omega
  · exact fun hk => ⟨2048, by omega, by omega⟩

end Jos
