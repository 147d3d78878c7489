import Jos.Memory.KernelMap

/-!
# `boot_map_region`

The region that `boot_map_region` maps is not bounded, so its loop may need many page tables,
and it takes them from the free list as it goes. What it does to a page directory rests on
`DirSeparated`: the page tables of the directory are different pages, and neither the directory
itself nor free pages.

`LoopMapped` is what a number of rounds do. One round satisfies it (`DirSeparated.mapPage`), and
two runs of rounds one after the other do (`LoopMapped.append`): the second run does not touch
what the first one has mapped, as its pages are other pages and its new tables come off the free
list.

The directory shows itself at `UVPT`, so a new page table is seen there as well, outside the
region (`bootMapRegion_shows_table`). This is all that is seen of it (`bootMapRegion_exact`).
-/

namespace Jos

variable {B : Boot} {σ σ' σ₁ : State} {d : ℕ} {free free' free₁ : List ℕ}
  {pgdir va pa perm a : Word}

/-- The page tables of the directory in frame `d` are different pages of the machine, and they
are apart from the directory and from the free list. At `UVPT` there is nothing or the directory
itself. -/
structure DirSeparated (B : Boot) (σ : State) (d : ℕ) (free : List ℕ) : Prop where
  chain : Chain σ.link σ.pageFreeList free
  free_lt : ∀ p ∈ free, p < B.npages
  free_ref : ∀ p ∈ free, σ.ref p = 0#16
  dir_lt : d < B.npages
  dir_notMem : d ∉ free
  own : ∀ u, entryOf (σ.mem d (pdx uvpt)) = some u → u.1 = d
  table : ∀ i u, i ≠ pdx uvpt → entryOf (σ.mem d i) = some u →
    u.1 < B.npages ∧ u.1 ≠ d ∧ u.1 ∉ free
  unique : ∀ i j u v, i ≠ pdx uvpt → j ≠ pdx uvpt → entryOf (σ.mem d i) = some u →
    entryOf (σ.mem d j) = some v → u.1 = v.1 → i = j

/-- The value of the entry at which `pgdir_walk` ends for `a`. -/
def pteValue (B : Boot) (σ : State) (pgdir a : Word) : Except Panic (Option Word) :=
  (pgdirWalk B pgdir a false σ).map fun r => r.1.map r.2.load

/-- The same entry read off memory. -/
def seenPte (σ : State) (d : ℕ) (a : Word) : Option Word :=
  (entryOf (σ.mem d (pdx a))).map fun u => σ.mem u.1 (ptx a)

/-- An entry stays as it is, or it was absent and is now zero. -/
def SamePte (old new : Option Word) : Prop := new = old ∨ old = none ∧ new = some 0#32

/-- The entry of a new page table. -/
def tableEntry (t : ℕ) : Word := page2pa t ||| pteP ||| pteU ||| pteW

theorem entryOf_tableEntry {t : ℕ} (ht : t < B.npages) :
    entryOf (tableEntry t) = some (t, tablePerm) := by
  have hn := B.npages_le
  exact entryOf_table (by omega)

/-- The directory slots of `n` pages from `va` on that have no page table. -/
def newSlots (σ : State) (d : ℕ) (va : Word) (n : ℕ) : Finset (Fin 1024) :=
  Finset.univ.filter fun i =>
    (∃ k < n, pdx (va + BitVec.ofNat 32 (k * 4096)) = i) ∧ entryOf (σ.mem d i) = none

/-- What the loop of `boot_map_region` has done to the directory in frame `d` after `n` rounds. -/
structure LoopMapped (perm : Word) (d n : ℕ) (va pa : Word) (σ : State) (free : List ℕ) (σ' : State)
    (free' : List ℕ) : Prop where
  inside : ∀ k < n, seenPte σ' d (va + BitVec.ofNat 32 (k * 4096)) =
    some ((pa + BitVec.ofNat 32 (k * 4096)) ||| perm ||| pteP)
  outside : ∀ a, (∀ k < n, pgnum a ≠ pgnum (va + BitVec.ofNat 32 (k * 4096))) →
    (pdx a = pdx uvpt → ptx a ∉ newSlots σ d va n) → SamePte (seenPte σ d a) (seenPte σ' d a)
  kept : ∀ i ∉ newSlots σ d va n, σ'.mem d i = σ.mem d i
  tables : ∀ i ∈ newSlots σ d va n, ∃ t ∈ free, σ'.mem d i = tableEntry t ∧ σ'.ref t = 1#16
  refs : ∀ p, σ'.ref p ≠ σ.ref p → p ∈ free ∧ ∃ i ∈ newSlots σ d va n, σ'.mem d i = tableEntry p
  taken : ∃ l, free = l ++ free' ∧ l.length = (newSlots σ d va n).card

theorem SamePte.trans {u v w : Option Word} (h : SamePte u v) (h' : SamePte v w) : SamePte u w := by
  obtain rfl | ⟨rfl, rfl⟩ := h
  · exact h'
  · obtain rfl | ⟨hc, -⟩ := h'
    · exact Or.inr ⟨rfl, rfl⟩
    · cases hc

/-- The walk finds what is in memory. -/
theorem DirSeparated.pteValue (h : DirSeparated B σ (frameAt pgdir) free) (a : Word) :
    pteValue B σ pgdir a = .ok (seenPte σ (frameAt pgdir) a) := by
  rw [Jos.pteValue, seenPte]
  cases ht : entryOf (σ.mem (frameAt pgdir) (pdx a)) with
  | none =>
    rw [pgdirWalk_absent ht]
    rfl
  | some u =>
    have hlt : u.1 < B.npages := by
      by_cases huvpt : pdx a = pdx uvpt
      · rw [huvpt] at ht
        rw [h.own u ht]
        exact h.dir_lt
      · exact (h.table _ u huvpt ht).1
    obtain ⟨kva, hwalk, hkva⟩ := pgdirWalk_of_entry ht hlt false
    rw [hwalk, Option.map_some, ← hkva]
    rfl

theorem seenPte_congr {b : Word} (h : pgnum a = pgnum b) : seenPte σ d a = seenPte σ d b := by
  obtain ⟨hpdx, hptx⟩ := pgnum_eq_iff.mp h
  rw [seenPte, seenPte, hpdx, hptx]

/-! ### One round -/

/-- Writing an entry of a page table changes what is seen at its own address only. -/
theorem DirSeparated.setWord (h : DirSeparated B σ d free) (hva : pdx va ≠ pdx uvpt)
    {u : ℕ × BitVec 12} (ht : entryOf (σ.mem d (pdx va)) = some u) (w : Word) :
    DirSeparated B (σ.setWord u.1 (ptx va) w) d free ∧
    (σ.setWord u.1 (ptx va) w).mem d = σ.mem d ∧
    seenPte (σ.setWord u.1 (ptx va) w) d va = some w ∧
    ∀ a, pgnum a ≠ pgnum va → seenPte (σ.setWord u.1 (ptx va) w) d a = seenPte σ d a := by
  obtain ⟨-, hne, -⟩ := h.table _ u hva ht
  have hdir : (σ.setWord u.1 (ptx va) w).mem d = σ.mem d := setWord_mem_of_ne hne.symm _ _
  refine ⟨⟨h.chain, h.free_lt, h.free_ref, h.dir_lt, h.dir_notMem, ?_, ?_, ?_⟩, hdir, ?_, ?_⟩
  · rw [hdir]
    exact h.own
  · rw [hdir]
    exact h.table
  · rw [hdir]
    exact h.unique
  · rw [seenPte, hdir, ht, Option.map_some, setWord_mem_self, Function.update_self]
  · intro a ha
    rw [seenPte, seenPte, hdir]
    cases hv : entryOf (σ.mem d (pdx a)) with
    | none => rfl
    | some v =>
      rw [Option.map_some, Option.map_some]
      by_cases huv : v.1 = u.1
      · -- the same page table, so another entry of it
        rw [huv, setWord_mem_self]
        have hpdx : pdx a = pdx va := by
          refine h.unique _ _ v u ?_ hva hv ht huv
          intro huvpt
          rw [huvpt] at hv
          exact hne (huv.symm.trans (h.own v hv))
        rw [Function.update_of_ne fun hptx => ha (pgnum_eq_iff.mpr ⟨hpdx, hptx⟩)]
      · rw [setWord_mem_of_ne huv]

/-- `page_alloc(ALLOC_ZERO)` takes the first free page. -/
theorem pageAlloc_zero {p : ℕ} (hhd : σ.pageFreeList = some p) (hp : p < B.npages) :
    pageAlloc B allocZero σ =
      .ok (some p, ({ σ.setLink p none with pageFreeList := σ.link p } : State).setFrame p
        fun _ => 0#32) := by
  have hn := B.npages_le
  simp only [pageAlloc, hhd, if_pos (show allocZero &&& allocZero ≠ 0#32 by decide),
    page2kva_of_lt hp, ok_bind, frameAt_add_kernbase, pgnum_page2pa (show p < 2 ^ 20 by omega)]
  rfl

/-- A page that was free becomes a page table of the directory. -/
theorem DirSeparated.addTable {t : ℕ} {i : Fin 1024} {w : Word} {π : BitVec 12}
    (h : DirSeparated B σ d (t :: free)) (hchain : Chain σ'.link σ'.pageFreeList free)
    (hlt : t < B.npages) (htd : t ≠ d) (hfree : t ∉ free) (hi : i ≠ pdx uvpt)
    (hdir : σ'.mem d = Function.update (σ.mem d) i w) (hw : entryOf w = some (t, π))
    (href : ∀ p ∈ free, σ'.ref p = 0#16) : DirSeparated B σ' d free := by
  have hself : entryOf (σ'.mem d i) = some (t, π) := by rw [hdir, Function.update_self, hw]
  have hother : ∀ k, k ≠ i → σ'.mem d k = σ.mem d k := by
    intro k hk
    rw [hdir, Function.update_of_ne hk]
  -- the other page tables were different from the free page
  have hnew : ∀ k u, k ≠ pdx uvpt → k ≠ i → entryOf (σ'.mem d k) = some u → u.1 ≠ t := by
    intro k u hk hki hu hut
    rw [hother k hki] at hu
    exact (h.table k u hk hu).2.2 (hut ▸ List.mem_cons_self)
  refine ⟨hchain, fun p hp => h.free_lt p (List.mem_cons_of_mem _ hp), href, h.dir_lt,
    fun hd => h.dir_notMem (List.mem_cons_of_mem _ hd), ?_, ?_, ?_⟩
  · rw [hother _ hi.symm]
    exact h.own
  · -- the new table is off the list now, the others were before
    intro k u hk hu
    by_cases hki : k = i
    · rw [hki, hself] at hu
      obtain rfl := Option.some.inj hu
      exact ⟨hlt, htd, hfree⟩
    · rw [hother k hki] at hu
      obtain ⟨hu₁, hu₂, hu₃⟩ := h.table k u hk hu
      exact ⟨hu₁, hu₂, fun hc => hu₃ (List.mem_cons_of_mem _ hc)⟩
  · intro k l u v hk hl hu hv huv
    by_cases hki : k = i <;> by_cases hli : l = i
    · rw [hki, hli]
    · rw [hki, hself] at hu
      obtain rfl := Option.some.inj hu
      exact absurd huv.symm (hnew l v hl hli hv)
    · rw [hli, hself] at hv
      obtain rfl := Option.some.inj hv
      exact absurd huv (hnew k u hk hki hu)
    · rw [hother k hki] at hu
      rw [hother l hli] at hv
      exact h.unique k l u v hk hl hu hv huv

/-- A walk that makes a page table takes the first free page for it. -/
theorem DirSeparated.newTable {t : ℕ} (h : DirSeparated B σ (frameAt pgdir) (t :: free))
    (hva : pdx va ≠ pdx uvpt) (habs : entryOf (σ.mem (frameAt pgdir) (pdx va)) = none) :
    ∃ σ' kva, pgdirWalk B pgdir va true σ = .ok (some (kva, ptx va), σ') ∧ frameAt kva = t ∧
      DirSeparated B σ' (frameAt pgdir) free ∧
      σ'.mem (frameAt pgdir) = Function.update (σ.mem (frameAt pgdir)) (pdx va) (tableEntry t) ∧
      σ'.mem t = (fun _ => 0#32) ∧
      (∀ f, f ≠ frameAt pgdir → f ≠ t → σ'.mem f = σ.mem f) ∧
      σ'.ref = Function.update σ.ref t 1#16 := by
  have hlt := h.free_lt t List.mem_cons_self
  have hfree : t ∉ free := (List.nodup_cons.mp h.chain.nodup).1
  have htd : t ≠ frameAt pgdir := fun hc => h.dir_notMem (hc ▸ List.mem_cons_self)
  have hentry := entryOf_tableEntry hlt
  have hpres : ¬present (σ.load (pgdir, pdx va)) = true := not_present_of_entryOf habs
  -- the state after `page_alloc`, and the one after the entry has been written
  set σ₁ : State := ({ σ.setLink t none with pageFreeList := σ.link t } : State).setFrame t
    fun _ => 0#32 with hσ₁
  set σ₂ := (σ₁.incRef t).setWord (frameAt pgdir) (pdx va) (tableEntry t) with hσ₂
  have hdir : σ₂.mem (frameAt pgdir) =
      Function.update (σ.mem (frameAt pgdir)) (pdx va) (tableEntry t) := by
    rw [hσ₂, setWord_mem_self]
    congr 1
    exact Function.update_of_ne htd.symm _ _
  have href : σ₂.ref = Function.update σ.ref t 1#16 := by
    change (σ₁.setRef t (σ₁.ref t + 1#16)).ref = _
    rw [ref_setRef, show σ₁.ref = σ.ref from ref_setLink σ t none, h.free_ref t List.mem_cons_self]
    rfl
  have hlink : σ₂.link = Function.update σ.link t none := by
    change (σ₁.setRef t (σ₁.ref t + 1#16)).link = _
    rw [link_setRef]
    exact link_setLink σ t none
  have hwalk : pgdirWalk B pgdir va true σ = walkTable B (σ₂.load (pgdir, pdx va)) va σ₂ := by
    simp only [pgdirWalk, if_neg hpres, if_true, pageAlloc_zero h.chain.head_eq hlt, ok_bind]
    rfl
  have hread : σ₂.load (pgdir, pdx va) = tableEntry t := by
    change σ₂.mem (frameAt pgdir) (pdx va) = _
    rw [hdir, Function.update_self]
  have hpg : pgnum (pteAddr (tableEntry t)) = t := (entryOf_eq_some.mp hentry).2.1
  refine ⟨σ₂, pteAddr (tableEntry t) + kernbase, ?_, ?_, ?_, hdir, ?_, ?_, href⟩
  · rw [hwalk, hread, walkTable, kaddr_of_lt (by rwa [hpg])]
    rfl
  · rw [frameAt_add_kernbase, hpg]
  · refine h.addTable ?_ hlt htd hfree hva hdir hentry ?_
    · rw [hlink]
      exact h.chain.pop
    · intro p hp
      rw [href, Function.update_of_ne (ne_of_mem_of_not_mem hp hfree)]
      exact h.free_ref p (List.mem_cons_of_mem _ hp)
  · rw [hσ₂, setWord_mem_of_ne htd]
    exact Function.update_self ..
  · intro f hfd hft
    rw [hσ₂, setWord_mem_of_ne hfd]
    exact Function.update_of_ne hft _ _

theorem mem_newSlots_one {i : Fin 1024} :
    i ∈ newSlots σ d va 1 ↔ i = pdx va ∧ entryOf (σ.mem d i) = none := by
  rw [newSlots, Finset.mem_filter, and_iff_right (Finset.mem_univ i)]
  refine and_congr_left fun _ => ?_
  constructor
  · rintro ⟨k, hk, rfl⟩
    obtain rfl : k = 0 := by omega
    rw [page_zero]
  · rintro rfl
    exact ⟨0, by omega, by rw [page_zero]⟩

/-- With a new page table the entries of its slot become zero, and the table itself is seen
at `UVPT`. -/
theorem DirSeparated.samePte_newTable {t : ℕ} {w : Word} {π : BitVec 12}
    (h : DirSeparated B σ d (t :: free)) (habs : entryOf (σ.mem d (pdx va)) = none)
    (hdir : σ'.mem d = Function.update (σ.mem d) (pdx va) w) (hw : entryOf w = some (t, π))
    (hzero : σ'.mem t = fun _ => 0#32) (hother : ∀ f, f ≠ d → f ≠ t → σ'.mem f = σ.mem f)
    (huvpt : pdx a = pdx uvpt → ptx a ∉ newSlots σ d va 1) :
    SamePte (seenPte σ d a) (seenPte σ' d a) := by
  rw [seenPte, seenPte]
  by_cases hslot : pdx a = pdx va
  · -- there was no table, and there is one full of zeros
    rw [hslot, habs, hdir, Function.update_self, hw, Option.map_some, hzero]
    exact Or.inr ⟨rfl, rfl⟩
  · left
    rw [hdir, Function.update_of_ne hslot]
    cases hu : entryOf (σ.mem d (pdx a)) with
    | none => rfl
    | some u =>
      rw [Option.map_some, Option.map_some]
      by_cases hown : pdx a = pdx uvpt
      · -- what is seen is the directory, whose other entries are kept
        have hne : ptx a ≠ pdx va := fun hc => huvpt hown (mem_newSlots_one.mpr ⟨hc, hc ▸ habs⟩)
        rw [hown] at hu
        rw [h.own u hu, hdir, Function.update_of_ne hne]
      · -- another page table is neither the directory nor the new one
        obtain ⟨-, hud, hufree⟩ := h.table _ u hown hu
        rw [hother u.1 hud fun hc => hufree (hc ▸ List.mem_cons_self)]

/-- A round that finds the page table. -/
theorem DirSeparated.mapPage_old (h : DirSeparated B σ d free) (hva : pdx va ≠ pdx uvpt)
    {u : ℕ × BitVec 12} (ht : entryOf (σ.mem d (pdx va)) = some u) (pa perm : Word) :
    LoopMapped perm d 1 va pa σ free (σ.setWord u.1 (ptx va) (pa ||| perm ||| pteP)) free := by
  -- the table is there, so the directory does not change
  have hnone : ∀ i, i ∉ newSlots σ d va 1 := by
    intro i hi
    obtain ⟨rfl, habs⟩ := mem_newSlots_one.mp hi
    rw [ht] at habs
    cases habs
  obtain ⟨-, hdir, hself, hother⟩ := h.setWord hva ht (pa ||| perm ||| pteP)
  refine ⟨?_, ?_, ?_, fun i hi => absurd hi (hnone i), fun p hp => absurd rfl hp, [], rfl, ?_⟩
  · intro k hk
    obtain rfl : k = 0 := by omega
    rw [page_zero, page_zero]
    exact hself
  · intro a ha _
    have hne := ha 0 (by omega)
    rw [page_zero] at hne
    exact Or.inl (hother a hne)
  · intro i _
    rw [hdir]
  · exact (Finset.card_eq_zero.mpr (Finset.eq_empty_of_forall_notMem hnone)).symm

/-- A round whose walk has made the page table `t`. -/
theorem DirSeparated.mapPage_new {t : ℕ} (h : DirSeparated B σ d (t :: free))
    (hva : pdx va ≠ pdx uvpt) (habs : entryOf (σ.mem d (pdx va)) = none)
    (hsep : DirSeparated B σ₁ d free)
    (hdir : σ₁.mem d = Function.update (σ.mem d) (pdx va) (tableEntry t))
    (hzero : σ₁.mem t = fun _ => 0#32) (hother : ∀ f, f ≠ d → f ≠ t → σ₁.mem f = σ.mem f)
    (href : σ₁.ref = Function.update σ.ref t 1#16) (pa perm : Word) :
    LoopMapped perm d 1 va pa σ (t :: free) (σ₁.setWord t (ptx va) (pa ||| perm ||| pteP))
      free := by
  have hlt := h.free_lt t List.mem_cons_self
  have hentry := entryOf_tableEntry hlt
  have ht : entryOf (σ₁.mem d (pdx va)) = some (t, tablePerm) := by
    rw [hdir, Function.update_self, hentry]
  have hslot : newSlots σ d va 1 = {pdx va} := by
    ext i
    rw [mem_newSlots_one, Finset.mem_singleton, and_iff_left_iff_imp]
    rintro rfl
    exact habs
  obtain ⟨-, hdir', hself, hother'⟩ := hsep.setWord hva ht (pa ||| perm ||| pteP)
  refine ⟨?_, ?_, ?_, ?_, ?_, [t], rfl, by rw [hslot]; rfl⟩
  · intro k hk
    obtain rfl : k = 0 := by omega
    rw [page_zero, page_zero]
    exact hself
  · -- the entry of another page was changed by the new table only
    intro a ha huvpt
    have hne := ha 0 (by omega)
    rw [page_zero] at hne
    rw [hother' a hne]
    exact h.samePte_newTable habs hdir hentry hzero hother huvpt
  · intro i hi
    rw [hslot, Finset.mem_singleton] at hi
    rw [hdir', hdir, Function.update_of_ne hi]
  · intro i hi
    rw [hslot, Finset.mem_singleton] at hi
    refine ⟨t, List.mem_cons_self, ?_, ?_⟩
    · rw [hdir', hi, hdir, Function.update_self]
    · change σ₁.ref t = _
      rw [href, Function.update_self]
  · -- writing the entry counts nothing
    intro p hp
    change σ₁.ref p ≠ _ at hp
    have hpt : p = t := by
      by_contra hne
      rw [href, Function.update_of_ne hne] at hp
      exact hp rfl
    subst hpt
    refine ⟨List.mem_cons_self, pdx va, by rw [hslot]; exact Finset.mem_singleton_self _, ?_⟩
    rw [hdir', hdir, Function.update_self]

/-- One round of the loop: it maps its page, or there is no page for the table. -/
theorem DirSeparated.mapPage (h : DirSeparated B σ (frameAt pgdir) free) (hva : pdx va ≠ pdx uvpt)
    (pa perm : Word) (n : ℕ) :
    (entryOf (σ.mem (frameAt pgdir) (pdx va)) = none ∧ free = [] ∧
      bootMapLoop B pgdir perm (n + 1) va pa σ =
        .error ⟨"boot_map_region panic: out of memory"⟩) ∨
    ∃ σ₁ free₁, bootMapLoop B pgdir perm (n + 1) va pa σ =
        bootMapLoop B pgdir perm n (va + pgsize) (pa + pgsize) σ₁ ∧
      DirSeparated B σ₁ (frameAt pgdir) free₁ ∧
      LoopMapped perm (frameAt pgdir) 1 va pa σ free σ₁ free₁ := by
  cases ht : entryOf (σ.mem (frameAt pgdir) (pdx va)) with
  | some u =>
    right
    obtain ⟨hlt, -⟩ := h.table _ u hva ht
    obtain ⟨kva, hwalk, hkva⟩ := pgdirWalk_of_entry ht hlt true
    refine ⟨_, free, ?_, (h.setWord hva ht _).1, h.mapPage_old hva ht pa perm⟩
    simp only [bootMapLoop, hwalk, ok_bind, State.store, hkva]
  | none =>
    cases free with
    | nil =>
      -- no table and no page for one: the loop panics here
      have hwalk := pgdirWalk_noPage (B := B) ht (h.chain.head_none_iff.mpr rfl)
      exact Or.inl ⟨rfl, rfl, bootMapLoop_full n hwalk⟩
    | cons t free =>
      right
      obtain ⟨σ₁, kva, hwalk, hkva, hsep, hdir, hzero, hother, href⟩ := h.newTable hva ht
      have hpde : entryOf (σ₁.mem (frameAt pgdir) (pdx va)) = some (t, tablePerm) := by
        rw [hdir, Function.update_self, entryOf_tableEntry (h.free_lt t List.mem_cons_self)]
      refine ⟨_, free, ?_, (hsep.setWord hva hpde _).1,
        h.mapPage_new hva ht hsep hdir hzero hother href pa perm⟩
      simp only [bootMapLoop, hwalk, ok_bind, State.store, hkva]

/-! ### The loop -/

theorem mem_newSlots {n : ℕ} {i : Fin 1024} : i ∈ newSlots σ d va n ↔
    (∃ k < n, pdx (va + BitVec.ofNat 32 (k * 4096)) = i) ∧ entryOf (σ.mem d i) = none := by
  rw [newSlots, Finset.mem_filter, and_iff_right (Finset.mem_univ i)]

theorem newSlots_zero : newSlots σ d va 0 = ∅ := by
  refine Finset.eq_empty_of_forall_notMem fun i hi => ?_
  obtain ⟨⟨k, hk, -⟩, -⟩ := mem_newSlots.mp hi
  exact absurd hk (Nat.not_lt_zero k)

theorem LoopMapped.zero : LoopMapped perm d 0 va pa σ free σ free where
  inside := fun k hk => absurd hk (Nat.not_lt_zero k)
  outside := fun _ _ _ => Or.inl rfl
  kept := fun _ _ => rfl
  tables := fun i hi => absurd hi (by rw [newSlots_zero]; exact Finset.notMem_empty i)
  refs := fun _ hp => absurd rfl hp
  taken := ⟨[], rfl, by rw [newSlots_zero]; rfl⟩

theorem mem_newSlots_succ {n : ℕ} {i : Fin 1024} : i ∈ newSlots σ d va (n + 1) ↔
    (i = pdx va ∨ ∃ k < n, pdx (va + pgsize + BitVec.ofNat 32 (k * 4096)) = i) ∧
      entryOf (σ.mem d i) = none := by
  rw [mem_newSlots]
  refine and_congr_left fun _ => ?_
  constructor
  · rintro ⟨k, hk, hki⟩
    cases k with
    | zero =>
      rw [page_zero] at hki
      exact Or.inl hki.symm
    | succ k =>
      rw [← page_succ] at hki
      exact Or.inr ⟨k, by omega, hki⟩
  · rintro (rfl | ⟨k, hk, hki⟩)
    · exact ⟨0, by omega, by rw [page_zero]⟩
    · rw [page_succ] at hki
      exact ⟨k + 1, by omega, hki⟩

section Append

variable {n : ℕ}

/-- The tables that are missing are that of the first round, if it is, and those that are
missing after it. -/
theorem LoopMapped.newSlots_succ (h₁ : LoopMapped perm d 1 va pa σ free σ₁ free₁)
    (h : DirSeparated B σ d free) (n : ℕ) :
    newSlots σ d va (n + 1) = newSlots σ d va 1 ∪ newSlots σ₁ d (va + pgsize) n ∧
      Disjoint (newSlots σ d va 1) (newSlots σ₁ d (va + pgsize) n) := by
  -- the slot that the first page fills is not filled again by the others
  have hthere : ∀ i ∈ newSlots σ d va 1, entryOf (σ₁.mem d i) ≠ none := by
    intro i hi
    obtain ⟨t, ht, hmem, -⟩ := h₁.tables i hi
    rw [hmem, entryOf_tableEntry (h.free_lt t ht)]
    exact Option.some_ne_none _
  constructor
  · ext i
    rw [Finset.mem_union, mem_newSlots_succ]
    by_cases hi : i ∈ newSlots σ d va 1
    · refine iff_of_true ?_ (Or.inl hi)
      obtain ⟨hva, habs⟩ := mem_newSlots_one.mp hi
      exact ⟨Or.inl hva, habs⟩
    · rw [or_iff_right hi, mem_newSlots, h₁.kept i hi]
      refine and_congr_left fun habs => or_iff_right ?_
      exact fun hva => hi (mem_newSlots_one.mpr ⟨hva, habs⟩)
  · rw [Finset.disjoint_left]
    exact fun i hi hi' => hthere i hi (mem_newSlots.mp hi').2

/-- The rounds after the first one map other pages. -/
theorem LoopMapped.first_inside (h₁ : LoopMapped perm d 1 va pa σ free σ₁ free₁)
    (h₂ : LoopMapped perm d n (va + pgsize) (pa + pgsize) σ₁ free₁ σ' free')
    (hva : pdx va ≠ pdx uvpt) (hfit : va.toNat + (n + 1) * 4096 ≤ 2 ^ 32) :
    seenPte σ' d va = some (pa ||| perm ||| pteP) := by
  have hfirst := h₁.inside 0 (by omega)
  rw [page_zero, page_zero] at hfirst
  have hother : ∀ k < n, pgnum va ≠ pgnum (va + pgsize + BitVec.ofNat 32 (k * 4096)) := by
    intro k hk
    rw [page_succ, pgnum_add_ofNat (by omega), pgnum_eq]
    omega
  obtain hsame | ⟨hc, -⟩ := h₂.outside va hother fun hc => absurd hc hva
  · rw [hsame, hfirst]
  · rw [hfirst] at hc
    cases hc

/-- They do not take the page table of the first one, which is not on the free list any more. -/
theorem LoopMapped.first_ref (h₁ : LoopMapped perm d 1 va pa σ free σ₁ free₁)
    (h₂ : LoopMapped perm d n (va + pgsize) (pa + pgsize) σ₁ free₁ σ' free')
    (hsep : DirSeparated B σ d free) (hsep₁ : DirSeparated B σ₁ d free₁)
    (hva : pdx va ≠ pdx uvpt) {i : Fin 1024} (hi : i ∈ newSlots σ d va 1) :
    ∃ t ∈ free, σ₁.mem d i = tableEntry t ∧ σ'.ref t = 1#16 := by
  obtain ⟨t, ht, hmem, href⟩ := h₁.tables i hi
  refine ⟨t, ht, hmem, ?_⟩
  rw [← href]
  by_contra hne
  have huvpt : i ≠ pdx uvpt := by
    rw [(mem_newSlots_one.mp hi).1]
    exact hva
  have htable : entryOf (σ₁.mem d i) = some (t, tablePerm) := by
    rw [hmem, entryOf_tableEntry (hsep.free_lt t ht)]
  exact (hsep₁.table i _ huvpt htable).2.2 (h₂.refs t hne).1

/-- A round and what comes after it. -/
theorem LoopMapped.append (h₁ : LoopMapped perm d 1 va pa σ free σ₁ free₁)
    (h₂ : LoopMapped perm d n (va + pgsize) (pa + pgsize) σ₁ free₁ σ' free')
    (hsep : DirSeparated B σ d free) (hsep₁ : DirSeparated B σ₁ d free₁)
    (hva : pdx va ≠ pdx uvpt) (hfit : va.toNat + (n + 1) * 4096 ≤ 2 ^ 32) :
    LoopMapped perm d (n + 1) va pa σ free σ' free' := by
  obtain ⟨hunion, hdisj⟩ := h₁.newSlots_succ hsep n
  obtain ⟨l₁, hl₁, hlen₁⟩ := h₁.taken
  obtain ⟨l₂, hl₂, hlen₂⟩ := h₂.taken
  have hsub (p : ℕ) (hp : p ∈ free₁) : p ∈ free := by
    rw [hl₁]
    exact List.mem_append_right _ hp
  -- the entries of new tables stay
  have hkept (i : Fin 1024) (hi : i ∈ newSlots σ d va 1) : σ'.mem d i = σ₁.mem d i :=
    h₂.kept i (Finset.disjoint_left.mp hdisj hi)
  refine ⟨?_, ?_, ?_, ?_, ?_, l₁ ++ l₂, ?_, ?_⟩
  · intro k hk
    cases k with
    | zero =>
      rw [page_zero, page_zero]
      exact h₁.first_inside h₂ hva hfit
    | succ k =>
      rw [← page_succ, ← page_succ]
      exact h₂.inside k (by omega)
  · -- what neither of the two has changed
    intro a ha huvpt
    rw [hunion] at huvpt
    have hsame₁ := h₁.outside a (fun k hk => ha k (by omega)) fun hc hm =>
      huvpt hc (Finset.mem_union_left _ hm)
    refine hsame₁.trans (h₂.outside a (fun k hk => ?_) fun hc hm =>
      huvpt hc (Finset.mem_union_right _ hm))
    rw [page_succ]
    exact ha (k + 1) (by omega)
  · intro i hi
    rw [hunion, Finset.notMem_union] at hi
    rw [h₂.kept i hi.2, h₁.kept i hi.1]
  · intro i hi
    rw [hunion, Finset.mem_union] at hi
    obtain hi | hi := hi
    · obtain ⟨t, ht, hmem, href⟩ := h₁.first_ref h₂ hsep hsep₁ hva hi
      exact ⟨t, ht, by rw [hkept i hi, hmem], href⟩
    · obtain ⟨t, ht, hmem, href⟩ := h₂.tables i hi
      exact ⟨t, hsub t ht, hmem, href⟩
  · intro p hp
    rw [hunion]
    -- the count was changed by the first round or by a later one
    by_cases hp₁ : σ₁.ref p = σ.ref p
    · rw [← hp₁] at hp
      obtain ⟨hpf, i, hi, hmem⟩ := h₂.refs p hp
      exact ⟨hsub p hpf, i, Finset.mem_union_right _ hi, hmem⟩
    · obtain ⟨hpf, i, hi, hmem⟩ := h₁.refs p hp₁
      exact ⟨hpf, i, Finset.mem_union_left _ hi, by rw [hkept i hi, hmem]⟩
  · rw [hl₁, hl₂, List.append_assoc]
  · rw [hunion, Finset.card_union_of_disjoint hdisj, List.length_append, hlen₁, hlen₂]

end Append

/-- The loop maps its pages if there are pages for the tables, and panics if not. -/
theorem bootMapLoop_spec (perm : Word) (n : ℕ) (h : DirSeparated B σ (frameAt pgdir) free)
    (hva : ∀ k < n, pdx (va + BitVec.ofNat 32 (k * 4096)) ≠ pdx uvpt)
    (hfit : va.toNat + n * 4096 ≤ 2 ^ 32) :
    ((newSlots σ (frameAt pgdir) va n).card ≤ free.length ∧
      ∃ σ' free', bootMapLoop B pgdir perm n va pa σ = .ok σ' ∧
        DirSeparated B σ' (frameAt pgdir) free' ∧
        LoopMapped perm (frameAt pgdir) n va pa σ free σ' free') ∨
    (free.length < (newSlots σ (frameAt pgdir) va n).card ∧
      bootMapLoop B pgdir perm n va pa σ =
        .error ⟨"boot_map_region panic: out of memory"⟩) := by
  induction n generalizing σ free va pa with
  | zero =>
    refine Or.inl ⟨by rw [newSlots_zero]; exact Nat.zero_le _, σ, free, rfl, h, ?_⟩
    exact LoopMapped.zero
  | succ n ih =>
    obtain ⟨hva₀, hvas⟩ := forall_page_succ (P := fun b => pdx b ≠ pdx uvpt).mp hva
    obtain ⟨habs, rfl, hfull⟩ | ⟨σ₁, free₁, hstep, hsep₁, h₁⟩ := h.mapPage hva₀ pa perm n
    · refine Or.inr ⟨?_, hfull⟩
      exact Finset.card_pos.mpr ⟨pdx va, mem_newSlots_succ.mpr ⟨Or.inl rfl, habs⟩⟩
    · obtain ⟨hunion, hdisj⟩ := h₁.newSlots_succ h n
      obtain ⟨l, hl, hlen⟩ := h₁.taken
      have hcard : free.length = (newSlots σ (frameAt pgdir) va 1).card + free₁.length := by
        rw [hl, List.length_append, hlen]
      rw [hunion, Finset.card_union_of_disjoint hdisj, hstep]
      -- the cursor wraps only behind the last page
      have hfit₁ : (va + pgsize).toNat + n * 4096 ≤ 2 ^ 32 := by
        rw [BitVec.toNat_add, show pgsize.toNat = 4096 from rfl]
        omega
      obtain ⟨hle, σ', free', hrun, hsep', h₂⟩ | ⟨hlt, hfull⟩ := ih hsep₁ hvas hfit₁
      · exact Or.inl ⟨by omega, σ', free', hrun, hsep', h₁.append h₂ h hsep₁ hva₀ hfit⟩
      · exact Or.inr ⟨by omega, hfull⟩

/-! ### The region -/

/-- The directory slots of the region that have no page table. -/
def newTables (σ : State) (pgdir va size : Word) : Finset (Fin 1024) :=
  newSlots σ (frameAt pgdir) va (pgnum size)

/-- The walk of `a` goes through the directory's own entry and ends at the directory entry of a
new page table. -/
def ShowsNewTable (σ : State) (pgdir va size a : Word) : Prop :=
  pdx a = pdx uvpt ∧ present (σ.load (pgdir, pdx uvpt)) = true ∧ ptx a ∈ newTables σ pgdir va size

/-- What `boot_map_region` has done to a page directory. -/
structure RegionMapped (B : Boot) (pgdir va size pa perm : Word) (σ σ' : State) : Prop where
  inside : ∀ o < size.toNat, pteValue B σ' pgdir (va + BitVec.ofNat 32 o) =
    .ok (some ((pa + roundDown (BitVec.ofNat 32 o) pgsize) ||| perm ||| pteP))
  outside : ∀ a, ¬InRange va size a → ¬ShowsNewTable σ pgdir va size a →
    ∃ old new, pteValue B σ pgdir a = .ok old ∧ pteValue B σ' pgdir a = .ok new ∧ SamePte old new
  /-- At `UVPT` the new page tables are seen. -/
  window : ∀ a, ShowsNewTable σ pgdir va size a → ∃ t, σ.ref t = 0#16 ∧ σ'.ref t = 1#16 ∧
    pteValue B σ' pgdir a = .ok (some (tableEntry t))
  tables : ∀ i ∈ newTables σ pgdir va size, ∃ t, OnFreeList σ t ∧
    σ'.load (pgdir, i) = tableEntry t ∧ σ.ref t = 0#16 ∧ σ'.ref t = 1#16
  refs : ∀ p, σ'.ref p ≠ σ.ref p → σ.ref p = 0#16 ∧ σ'.ref p = 1#16 ∧
    ∃ i ∈ newTables σ pgdir va size, σ'.load (pgdir, i) = tableEntry p

section Region

variable {size : Word}

/-- The page of an address of the region is one of the pages of the loop. -/
theorem page_of_offset (hva : va.toNat % 4096 = 0) (hfit : va.toNat + size.toNat ≤ 2 ^ 32) {o : ℕ}
    (ho : o < size.toNat) :
    pgnum (va + BitVec.ofNat 32 o) = pgnum (va + BitVec.ofNat 32 (o / 4096 * 4096)) := by
  rw [pgnum_add_ofNat (by omega), pgnum_add_ofNat (by omega)]
  omega

theorem roundDown_ofNat {o : ℕ} (ho : o < 2 ^ 32) :
    roundDown (BitVec.ofNat 32 o) pgsize = BitVec.ofNat 32 (o / 4096 * 4096) := by
  apply BitVec.eq_of_toNat_eq
  rw [roundDown_pgsize, BitVec.toNat_ofNat, BitVec.toNat_ofNat]
  omega

/-- The pages of the loop are in the region. -/
theorem inRange_page (hfit : va.toNat + size.toNat ≤ 2 ^ 32) {k : ℕ}
    (hk : k < pgnum size) : InRange va size (va + BitVec.ofNat 32 (k * 4096)) := by
  rw [pgnum_eq] at hk
  rw [InRange, BitVec.le_def, BitVec.toNat_add, BitVec.toNat_ofNat]
  omega

/-- An address on one of the pages of the loop is in the region. -/
theorem inRange_of_page (hva : va.toNat % 4096 = 0) (hsize : size.toNat % 4096 = 0)
    (hfit : va.toNat + size.toNat ≤ 2 ^ 32) {k : ℕ} (hk : k < pgnum size)
    (ha : pgnum a = pgnum (va + BitVec.ofNat 32 (k * 4096))) : InRange va size a := by
  rw [pgnum_eq] at hk
  rw [pgnum_add_ofNat (by omega), pgnum_eq] at ha
  rw [InRange, BitVec.le_def]
  omega

/-- What the loop does to the region. -/
theorem LoopMapped.region {free' : List ℕ}
    (h : LoopMapped perm (frameAt pgdir) (pgnum size) va pa σ free σ' free')
    (hsep : DirSeparated B σ (frameAt pgdir) free) (hsep' : DirSeparated B σ' (frameAt pgdir) free')
    (hva : va.toNat % 4096 = 0) (hsize : size.toNat % 4096 = 0)
    (hfit : va.toNat + size.toNat ≤ 2 ^ 32)
    (huvpt : ∀ k < pgnum size, pdx (va + BitVec.ofNat 32 (k * 4096)) ≠ pdx uvpt) :
    RegionMapped B pgdir va size pa perm σ σ' := by
  have hfree : ∀ t ∈ free, OnFreeList σ t ∧ σ.ref t = 0#16 := fun t ht =>
    ⟨⟨free, hsep.chain, ht⟩, hsep.free_ref t ht⟩
  -- the entry of `UVPT` is not among the new ones
  have hown : σ'.mem (frameAt pgdir) (pdx uvpt) = σ.mem (frameAt pgdir) (pdx uvpt) := by
    refine h.kept _ fun hc => ?_
    obtain ⟨⟨k, hk, hki⟩, -⟩ := mem_newSlots.mp hc
    exact huvpt k hk hki
  refine ⟨?_, ?_, ?_, ?_, ?_⟩
  · intro o ho
    have ho' : o < 2 ^ 32 := ho.trans size.isLt
    rw [hsep'.pteValue, seenPte_congr (page_of_offset hva hfit ho), roundDown_ofNat ho',
      h.inside (o / 4096) (by rw [pgnum_eq]; omega)]
  · intro a ha hshow
    refine ⟨_, _, hsep.pteValue a, hsep'.pteValue a, ?_⟩
    by_cases hself : pdx a = pdx uvpt ∧ entryOf (σ.mem (frameAt pgdir) (pdx uvpt)) = none
    · -- the directory does not show itself
      rw [seenPte, seenPte, hself.1, hown, hself.2]
      exact Or.inl rfl
    · refine h.outside a (fun k hk hpage => ha (inRange_of_page hva hsize hfit hk hpage)) ?_
      intro hc hmem
      rw [not_and, ← Ne, Option.ne_none_iff_exists'] at hself
      obtain ⟨u, hu⟩ := hself hc
      exact hshow ⟨hc, (entryOf_eq_some.mp hu).1, hmem⟩
  · rintro a ⟨hc, hpres, hmem⟩
    obtain ⟨t, ht, hentry, href⟩ := h.tables _ hmem
    refine ⟨t, (hfree t ht).2, href, ?_⟩
    have hu : entryOf (σ.mem (frameAt pgdir) (pdx uvpt)) = _ := entryOf_some hpres
    have hd := hsep.own _ hu
    rw [hsep'.pteValue, seenPte, hc, hown, hu, Option.map_some, hd, hentry]
  · intro i hi
    obtain ⟨t, ht, hentry, href⟩ := h.tables i hi
    exact ⟨t, (hfree t ht).1, hentry, (hfree t ht).2, href⟩
  · intro p hp
    obtain ⟨hpf, i, hi, hentry⟩ := h.refs p hp
    refine ⟨(hfree p hpf).2, ?_, i, hi, hentry⟩
    -- the entry says which page it is
    obtain ⟨t, ht, hentry', href⟩ := h.tables i hi
    have hpt := entryOf_tableEntry (hsep.free_lt p hpf)
    rw [← hentry, hentry', entryOf_tableEntry (hsep.free_lt t ht)] at hpt
    obtain ⟨rfl, -⟩ := Prod.mk.inj (Option.some.inj hpt)
    exact href

/-- With enough pages for the page tables the region is mapped. -/
theorem DirSeparated.bootMapRegion_maps (h : DirSeparated B σ (frameAt pgdir) free)
    (hva : va.toNat % 4096 = 0) (hsize : size.toNat % 4096 = 0)
    (hfit : va.toNat + size.toNat ≤ 2 ^ 32) (huvpt : ∀ a, InRange va size a → pdx a ≠ pdx uvpt)
    (pa perm : Word) (hle : (newTables σ pgdir va size).card ≤ free.length) :
    ∃ σ', bootMapRegion B pgdir va size pa perm σ = .ok σ' ∧
      RegionMapped B pgdir va size pa perm σ σ' := by
  have hpages : ∀ k < pgnum size, pdx (va + BitVec.ofNat 32 (k * 4096)) ≠ pdx uvpt :=
    fun k hk => huvpt _ (inRange_page hfit hk)
  obtain ⟨-, σ', free', hrun, hsep', hmapped⟩ | ⟨hlt, -⟩ :=
    bootMapLoop_spec perm (pgnum size) h hpages (by rw [pgnum_eq]; omega)
  · exact ⟨σ', hrun, hmapped.region h hsep' hva hsize hfit hpages⟩
  · exact absurd hle (Nat.not_le.mpr hlt)

/-- When the pages run out, it panics. -/
theorem DirSeparated.bootMapRegion_panics (h : DirSeparated B σ (frameAt pgdir) free)
    (hsize : size.toNat % 4096 = 0) (hfit : va.toNat + size.toNat ≤ 2 ^ 32)
    (huvpt : ∀ a, InRange va size a → pdx a ≠ pdx uvpt) (pa perm : Word)
    (hlt : free.length < (newTables σ pgdir va size).card) :
    bootMapRegion B pgdir va size pa perm σ =
      .error ⟨"boot_map_region panic: out of memory"⟩ := by
  obtain ⟨hle, -⟩ | ⟨-, hfull⟩ := bootMapLoop_spec perm (pgnum size) h
    (fun k hk => huvpt _ (inRange_page hfit hk)) (by rw [pgnum_eq]; omega)
  · exact absurd hlt (Nat.not_lt.mpr hle)
  · exact hfull

/-- `boot_map_region` maps its region if there are pages for the page tables, and panics if there
are not. Outside of the region the entries stay as they are, but for the page tables that are
seen at `UVPT`. -/
theorem bootMapRegion_exact (pa perm : Word) (h : DirSeparated B σ (frameAt pgdir) free)
    (hva : va.toNat % 4096 = 0) (hsize : size.toNat % 4096 = 0)
    (hfit : va.toNat + size.toNat ≤ 2 ^ 32) (huvpt : ∀ a, InRange va size a → pdx a ≠ pdx uvpt) :
    ((newTables σ pgdir va size).card ≤ free.length →
      ∃ σ', bootMapRegion B pgdir va size pa perm σ = .ok σ' ∧
        RegionMapped B pgdir va size pa perm σ σ') ∧
    (free.length < (newTables σ pgdir va size).card →
      bootMapRegion B pgdir va size pa perm σ =
        .error ⟨"boot_map_region panic: out of memory"⟩) :=
  ⟨h.bootMapRegion_maps hva hsize hfit huvpt pa perm,
    h.bootMapRegion_panics hsize hfit huvpt pa perm⟩

end Region

/-! ### The kernel's directory -/

/-- The page invariant separates the tables of `kern_pgdir`. -/
theorem PageInv.dirSeparated (h : PageInv B σ 0 free)
    (hown : ∀ u, entryOf (σ.mem B.kernFrame (pdx uvpt)) = some u → u.1 = B.kernFrame) :
    DirSeparated B σ B.kernFrame free := by
  have hslot : ∀ i u, i ≠ pdx uvpt → entryOf (σ.mem B.kernFrame i) = some u →
      slotRef B σ (.pde none i) = some u.1 :=
    fun i u hi hu => Separated.slotRef_pde (a := none) rfl hi hu
  refine ⟨h.chain, fun p hp => (h.free_managed p hp).1, ?_, B.kernFrame_lt, ?_, hown, ?_, ?_⟩
  · intro p hp
    rw [h.count p (h.free_managed p hp), h.free_unref p hp]
  · exact fun hc => (h.free_managed _ hc).ne_kernFrame rfl
  · intro i u hi hu
    have hm := h.slot_managed _ _ (hslot i u hi hu)
    exact ⟨hm.1, hm.ne_kernFrame, h.notMem_of_slot (hslot i u hi hu)⟩
  · intro i j u v hi hj hu hv huv
    have hv' := hslot j v hj hv
    rw [← huv] at hv'
    exact (Slot.pde.inj (h.unique _ _ _ trivial (hslot i u hi hu) hv')).2.symm

/-- `PADDR(kern_pgdir)` is a page. -/
theorem Boot.kernPgdir_sub (B : Boot) : B.kernPgdir - kernbase = page2pa B.kernFrame := by
  have hlt := B.kernFrame_lt_pow
  have hnat := B.kernPgdir_toNat.1
  have hge := B.imageEnd_ge
  have hm₁ := B.imageEnd_mod
  have hm₂ := B.pagesSize_mod
  apply BitVec.eq_of_toNat_eq
  rw [BitVec.toNat_sub_of_le (kernbase_le_kernPgdir B), page2pa_toNat (by omega), B.kernFrame_eq,
    hnat, show kernbase.toNat = 0xF0000000 from rfl]
  omega

/-- `kern_pgdir` is its own page table at `UVPT`. -/
theorem Booted.entry_uvpt (h : Booted B σ) :
    entryOf (σ.mem B.kernFrame (pdx uvpt)) = some (B.kernFrame, 5#12) := by
  have hlt := B.kernFrame_lt_pow
  rw [h.kernDir, Function.update_self, B.kernPgdir_sub, entryOf_page2pa (by omega) (by decide)]
  rfl

/-- The kernel's directory when `mem_init` has called `page_init`. -/
theorem Booted.dirSeparated (h : Booted B σ) : ∃ free,
    DirSeparated B (pageInit B σ) B.kernFrame free ∧ (∀ p, p ∈ free ↔ B.Managed p) ∧
      (pageInit B σ).mem = σ.mem := by
  obtain ⟨free, hinv, hmem, hsame⟩ := pageInit_spec h
  refine ⟨free, hinv.dirSeparated fun u hu => ?_, hmem, hsame.mem⟩
  rw [hsame.mem, h.entry_uvpt] at hu
  obtain rfl := Option.some.inj hu
  rfl

/-- The mapping of one page at `UENVS` in the kernel's directory needs one page table. -/
theorem newTables_uenvs (h : Booted B σ) :
    newTables (pageInit B σ) B.kernPgdir uenvs pgsize = {envsSlot} := by
  obtain ⟨free, -, -, hmem⟩ := h.dirSeparated
  ext i
  rw [newTables, show pgnum pgsize = 1 from rfl, mem_newSlots_one, Finset.mem_singleton,
    show pdx uenvs = envsSlot by decide, and_iff_left_iff_imp]
  rintro rfl
  rw [hmem, show frameAt B.kernPgdir = B.kernFrame from rfl, h.kernDir,
    Function.update_of_ne (by decide)]
  exact entryOf_zero

/-- It is seen at `UVPT`, -/
theorem Booted.showsNewTable (h : Booted B σ) : ShowsNewTable (pageInit B σ) B.kernPgdir uenvs
    pgsize (pgaddr (pdx uvpt) envsSlot 0#32) := by
  obtain ⟨free, -, -, hmem⟩ := h.dirSeparated
  rw [ShowsNewTable, newTables_uenvs h, pdx_pgaddr, ptx_pgaddr, State.load, hmem]
  exact ⟨rfl, (entryOf_eq_some.mp h.entry_uvpt).1, Finset.mem_singleton_self _⟩

/-- where there is an empty entry before. -/
theorem Booted.pteValue_uvpt (h : Booted B σ) : pteValue B (pageInit B σ) B.kernPgdir
    (pgaddr (pdx uvpt) envsSlot 0#32) = .ok (some 0#32) := by
  obtain ⟨free, hsep, -, hmem⟩ := h.dirSeparated
  have hself : entryOf ((pageInit B σ).mem (frameAt B.kernPgdir) (pdx uvpt)) =
      some (B.kernFrame, 5#12) := by
    rw [hmem]
    exact h.entry_uvpt
  rw [DirSeparated.pteValue hsep, seenPte, pdx_pgaddr, ptx_pgaddr, hself, Option.map_some, hmem,
    h.kernDir, Function.update_of_ne (by decide)]

theorem uenvs_ne_uvpt (a : Word) (ha : InRange uenvs pgsize a) : pdx a ≠ pdx uvpt := by
  obtain ⟨hle, hlt⟩ := ha
  rw [BitVec.le_def, show uenvs.toNat = 955 * 4194304 by decide] at hle
  rw [show uenvs.toNat = 955 * 4194304 by decide, show pgsize.toNat = 4096 from rfl] at hlt
  intro huvpt
  have hval := congrArg Fin.val huvpt
  rw [pdx_val, pdx_uvpt] at hval
  change _ / _ = 957 at hval
  omega

theorem bootMapRegion_exact_small : ∃ σ',
    bootMapRegion smallMachine smallMachine.kernPgdir uenvs pgsize 0#32 pteU
      (pageInit smallMachine smallMemory) = .ok σ' ∧
    RegionMapped smallMachine smallMachine.kernPgdir uenvs pgsize 0#32 pteU
      (pageInit smallMachine smallMemory) σ' := by
  obtain ⟨free, hsep, hmem, -⟩ := smallMemory_booted.dirSeparated
  refine (bootMapRegion_exact 0#32 pteU hsep (by decide) (by decide) (by decide) uenvs_ne_uvpt).1 ?_
  rw [newTables_uenvs smallMemory_booted]
  exact List.length_pos_of_mem ((hmem 1).mpr ((smallMachine_managed_iff 1).mpr (by decide)))

/-- The directory entry of the new page table is seen at `UVPT`, outside of the region: it was
zero before. -/
theorem bootMapRegion_shows_table : ∃ σ' free,
    DirSeparated smallMachine (pageInit smallMachine smallMemory) smallMachine.kernFrame free ∧
    1 ≤ free.length ∧
    bootMapRegion smallMachine smallMachine.kernPgdir uenvs pgsize 0#32 pteU
      (pageInit smallMachine smallMemory) = .ok σ' ∧
    ¬InRange uenvs pgsize (pgaddr (pdx uvpt) envsSlot 0#32) ∧
    pteValue smallMachine (pageInit smallMachine smallMemory) smallMachine.kernPgdir
      (pgaddr (pdx uvpt) envsSlot 0#32) = .ok (some 0#32) ∧
    pteValue smallMachine σ' smallMachine.kernPgdir (pgaddr (pdx uvpt) envsSlot 0#32) ≠
      .ok (some 0#32) := by
  obtain ⟨free, hsep, hmem, -⟩ := smallMemory_booted.dirSeparated
  have hfree : 1 ≤ free.length :=
    List.length_pos_of_mem ((hmem 1).mpr ((smallMachine_managed_iff 1).mpr (by decide)))
  have hnew := newTables_uenvs smallMemory_booted
  obtain ⟨σ', hrun, hmapped⟩ : ∃ σ',
      bootMapRegion smallMachine smallMachine.kernPgdir uenvs pgsize 0#32 pteU
        (pageInit smallMachine smallMemory) = .ok σ' ∧ RegionMapped _ _ _ _ _ _ _ σ' :=
    hsep.bootMapRegion_maps (by decide) (by decide) (by decide) uenvs_ne_uvpt 0#32 pteU
      (by rw [hnew]; exact hfree)
  refine ⟨σ', free, hsep, hfree, hrun, fun hin => uenvs_ne_uvpt _ hin (pdx_pgaddr _ _), ?_, ?_⟩
  · exact smallMemory_booted.pteValue_uvpt
  · -- what `UVPT` shows is the entry of the new table, and its permissions are not 0
    obtain ⟨t, -, -, hshown⟩ := hmapped.window _ smallMemory_booted.showsNewTable
    rw [hshown]
    intro hc
    have hzero := Option.some.inj (Except.ok.inj hc)
    rw [tableEntry, BitVec.or_eq_zero_iff] at hzero
    exact absurd hzero.2 (by decide)

end Jos
