import Jos.Memory.PageInv

/-!
# The page table operations on the slots

`pgdir_walk`, `page_lookup`, `page_remove` and `page_insert` on an address space
that the page invariant covers. Each lemma says that the operation returns, which
slots it writes, and what it does to the free list; everything else is `Keeps`.

In `page_insert` the counter of `pp` is incremented before an old mapping is
removed, so in between one reference is in hand: this is why the lemmas about
`page_remove` and `page_decref` are stated for any `held`. It is also why the
re-insertion of a page at its own address needs no case of its own.
-/

namespace Jos

variable {B : Boot} {σ : State} {held : ℕ → ℕ} {free : List ℕ} {a : Space} {pgdir va : Word}

/-! ### `pgdir_walk` -/

/-- The page table is there and in memory: the walk changes nothing. -/
theorem pgdirWalk_of_entry {t : ℕ} {π : BitVec 12}
    (ht : entryOf (σ.mem (frameAt pgdir) (pdx va)) = some (t, π)) (hlt : t < B.npages) (c : Bool) :
    ∃ kva, pgdirWalk B pgdir va c σ = .ok (some (kva, ptx va), σ) ∧ frameAt kva = t := by
  obtain ⟨hpres, hpg, -⟩ := entryOf_eq_some.mp ht
  rw [show σ.mem (frameAt pgdir) (pdx va) = σ.load (pgdir, pdx va) from rfl] at hpres hpg
  refine ⟨pteAddr (σ.load (pgdir, pdx va)) + kernbase, ?_, by rw [frameAt_add_kernbase, hpg]⟩
  simp only [pgdirWalk, if_pos hpres, walkTable]
  rw [kaddr_of_lt (by rwa [hpg])]
  rfl

theorem pgdirWalk_present (h : PageInv B σ held free)
    (hd : dirFrame B σ a = some (frameAt pgdir)) (htr : Tracked a (pdx va)) {t : ℕ}
    {π : BitVec 12} (ht : entryOf (σ.mem (frameAt pgdir) (pdx va)) = some (t, π)) (c : Bool) :
    ∃ kva, pgdirWalk B pgdir va c σ = .ok (some (kva, ptx va), σ) ∧ frameAt kva = t :=
  pgdirWalk_of_entry ht (h.slot_managed _ t (Separated.slotRef_pde hd htr ht)).1 c

/-- No page table, and none is asked for. -/
theorem pgdirWalk_absent (ht : entryOf (σ.mem (frameAt pgdir) (pdx va)) = none) :
    pgdirWalk B pgdir va false σ = .ok (none, σ) := by
  have hpres : ¬present (σ.load (pgdir, pdx va)) = true := not_present_of_entryOf ht
  simp only [pgdirWalk, if_neg hpres]
  rfl

/-- No page table, and no page for a new one. -/
theorem pgdirWalk_noPage (ht : entryOf (σ.mem (frameAt pgdir) (pdx va)) = none)
    (hnil : σ.pageFreeList = none) : pgdirWalk B pgdir va true σ = .ok (none, σ) := by
  have hpres : ¬present (σ.load (pgdir, pdx va)) = true := not_present_of_entryOf ht
  simp only [pgdirWalk, if_neg hpres, if_true, pageAlloc, hnil, ok_bind]
  rfl

theorem pgdirWalk_full (h : PageInv B σ held [])
    (ht : entryOf (σ.mem (frameAt pgdir) (pdx va)) = none) :
    pgdirWalk B pgdir va true σ = .ok (none, σ) :=
  pgdirWalk_noPage ht (h.chain.head_none_iff.mpr rfl)

/-- The permissions `pgdir_walk` gives a new page table. -/
def tablePerm : BitVec 12 := 0x007#12

theorem entryOf_table {t : ℕ} (ht : t < 2 ^ 20) :
    entryOf (page2pa t ||| pteP ||| pteU ||| pteW) = some (t, tablePerm) := by
  have hperm : page2pa t ||| pteP ||| pteU ||| pteW = page2pa t ||| (pteU ||| pteW) ||| pteP := by
    rw [BitVec.or_assoc, BitVec.or_assoc, BitVec.or_comm pteP, ← BitVec.or_assoc]
  rw [hperm, entryOf_page2pa ht (by decide)]
  rfl

/-- A free page has no reference, so one more does not pass the bound. -/
theorem PageInv.refs_fill_le {t : ℕ} {s : Slot} {π : BitVec 12} {σ' : State}
    (h : PageInv B σ held (t :: free)) (hnone : slotRef B σ s = none)
    (hslots : slots B σ' = Function.update (slots B σ) s (some (t, π)))
    (hbound : ∀ p, refs B σ p + held p ≤ 65535) (p : ℕ) : refs B σ' p + held p ≤ 65535 := by
  have hcount : refs B σ' p = refs B σ p + if t = p then 1 else 0 := by
    rw [refs, slotRef_update hslots]
    exact refCount_update_some hnone _ _
  rw [hcount]
  split
  · next hp =>
    have h0 : refs B σ p + held p = 0 := h.free_unref p (by rw [hp]; exact List.mem_cons_self)
    omega
  · have hb := hbound p
    omega

/-- An empty page becomes the page table of a directory entry that had none. -/
theorem slots_newTable (h : Separated B σ) {i : Fin 1024} {t : ℕ}
    (hd : dirFrame B σ a = some (frameAt pgdir)) (htr : Tracked a i)
    (hold : ∀ j, slots B σ (.pte a i j) = none) (ht : t < 2 ^ 20) (hne : t ≠ frameAt pgdir)
    (hzero : σ.mem t = fun _ => 0#32) :
    slots B (σ.setWord (frameAt pgdir) i (page2pa t ||| pteP ||| pteU ||| pteW)) =
      Function.update (slots B σ) (.pde a i) (some (t, tablePerm)) := by
  rw [slots_setWord_pde h hd htr hold, entryOf_table ht]
  intro u hu
  obtain rfl : u = (t, tablePerm) := Option.some.inj (hu.symm.trans (entryOf_table ht))
  exact ⟨hne, fun j => by rw [hzero]; exact entryOf_zero⟩

/-- No page table: the first free page is cleared and entered in the directory. -/
theorem pgdirWalk_create {t : ℕ} (h : PageInv B σ held (t :: free))
    (ht : entryOf (σ.mem (frameAt pgdir) (pdx va)) = none) :
    ∃ σ₁ kva, frameAt kva = t ∧ pgdirWalk B pgdir va true σ = .ok (some (kva, ptx va),
        σ₁.setWord (frameAt pgdir) (pdx va) (page2pa t ||| pteP ||| pteU ||| pteW)) ∧
      PageInv B σ₁ (held + Pi.single t 1) free ∧ slots B σ₁ = slots B σ ∧ Keeps B σ σ₁ ∧
      σ₁.mem t = (fun _ => 0#32) ∧ ∀ f, f ≠ t → σ₁.mem f = σ.mem f := by
  have hpres : ¬present (σ.load (pgdir, pdx va)) = true := not_present_of_entryOf ht
  have hm : B.Managed t := h.free_managed t List.mem_cons_self
  have hfree : t ∉ free := (List.nodup_cons.mp h.chain.nodup).1
  obtain ⟨σ₁, halloc, hinv₁, hslots₁, hkeeps₁, hzero, hother, -⟩ := pageAlloc_spec h allocZero
  obtain ⟨hinv₂, hsame₂⟩ := incRef_spec hinv₁ hm hfree
  set w := page2pa t ||| pteP ||| pteU ||| pteW with hw
  have hpg : pgnum (pteAddr w) = t := (entryOf_eq_some.mp (entryOf_table hm.lt_pow)).2.1
  refine ⟨σ₁.incRef t, pteAddr w + kernbase, ?_, ?_, hinv₂, hsame₂.slots.trans hslots₁,
    hkeeps₁.trans hsame₂.keeps, ?_, fun f hf => ?_⟩
  · rw [frameAt_add_kernbase, hpg]
  · -- the code reads the entry it has just written
    simp only [pgdirWalk, if_neg hpres, if_true, halloc, ok_bind]
    change walkTable B (((σ₁.incRef t).setWord (frameAt pgdir) (pdx va) w).mem (frameAt pgdir)
      (pdx va)) va _ = _
    rw [setWord_mem_self, Function.update_self, walkTable, kaddr_of_lt (by rw [hpg]; exact hm.1)]
    rfl
  · rw [hsame₂.mem]
    exact hzero (by decide)
  · rw [hsame₂.mem, hother f hf]

/-- No page table: the first free page becomes one, empty and present. -/
theorem pgdirWalk_alloc {t : ℕ} (h : PageInv B σ held (t :: free))
    (hd : dirFrame B σ a = some (frameAt pgdir)) (htr : Tracked a (pdx va))
    (ht : entryOf (σ.mem (frameAt pgdir) (pdx va)) = none) :
    ∃ σ' kva, pgdirWalk B pgdir va true σ = .ok (some (kva, ptx va), σ') ∧ frameAt kva = t ∧
      PageInv B σ' held free ∧
      slots B σ' = Function.update (slots B σ) (.pde a (pdx va)) (some (t, tablePerm)) ∧
      σ'.envs = σ.envs ∧ σ'.envFreeList = σ.envFreeList ∧ (∀ cpu, σ'.curenv cpu = σ.curenv cpu) ∧
      entryOf (σ'.mem (frameAt pgdir) (pdx va)) = some (t, tablePerm) ∧
      σ'.mem t = (fun _ => 0#32) ∧
      (∀ f k, f ≠ t → (f, k) ≠ (frameAt pgdir, pdx va) → σ'.mem f k = σ.mem f k) ∧
      ((pdx va).val < 955 → Keeps B σ σ') := by
  have hm : B.Managed t := h.free_managed t List.mem_cons_self
  have hunref : ∀ s, slotRef B σ s ≠ some t := h.slot_ne_of_mem List.mem_cons_self
  obtain ⟨σ₂, kva, hkva, hwalk, hinv₂, hslots₂, hkeeps₂, hzero₂, hother₂⟩ := pgdirWalk_create h ht
  set w := page2pa t ||| pteP ||| pteU ||| pteW with hw
  have hd₂ : dirFrame B σ₂ a = some (frameAt pgdir) := by rw [hkeeps₂.dirFrame, hd]
  -- the directory is a table, the free page is not
  have hdt : t ≠ frameAt pgdir := h.dirFrame_ne_of_mem hd List.mem_cons_self
  -- there was no table, and the new one is empty: only the directory slot changes
  have hold : ∀ j, slots B σ₂ (.pte a (pdx va) j) = none := by
    intro j
    rw [hslots₂]
    exact slots_pte_of_none hd ht
  have hslots₃ : slots B (σ₂.setWord (frameAt pgdir) (pdx va) w) =
      Function.update (slots B σ₂) (.pde a (pdx va)) (some (t, tablePerm)) :=
    slots_newTable hinv₂.separated hd₂ htr hold hm.lt_pow hdt hzero₂
  set σ₃ := σ₂.setWord (frameAt pgdir) (pdx va) w with hσ₃
  have hpde : slots B σ₂ (.pde a (pdx va)) = none := by
    rw [hslots₂, slots_pde hd htr, ht]
  have hinv₃ : PageInv B σ₃ held free := by
    -- the reference in hand goes into the slot, which is the only one
    have hcount : refCount (slotRef B σ₂) t = 0 := by
      rw [slotRef_eq_of_slots hslots₂]
      exact refCount_eq_zero.mpr hunref
    have hfill := hinv₂.fill (i := .pde a (pdx va)) (by rw [slotRef, hpde]; rfl)
      (fun _ => hcount) (fun s _ => refCount_eq_zero.mp hcount s)
    unfold PageInv
    rw [slotRef_update hslots₃]
    exact hfill
  refine ⟨σ₃, kva, hwalk, hkva, hinv₃, by rw [hslots₃, hslots₂], hkeeps₂.envs,
    hkeeps₂.envFreeList, hkeeps₂.curenv, ?_, ?_, ?_, ?_⟩
  · rw [hσ₃, setWord_mem_self, Function.update_self, entryOf_table hm.lt_pow]
  · rw [hσ₃, setWord_mem_of_ne hdt, hzero₂]
  · intro f k hf hfk
    by_cases hfd : f = frameAt pgdir
    · subst hfd
      rw [hσ₃, setWord_mem_self, Function.update_of_ne (fun hk => hfk (by rw [hk])), hother₂ _ hf]
    · rw [hσ₃, setWord_mem_of_ne hfd, hother₂ f hf]
  · exact fun hi => hkeeps₂.trans (hinv₂.separated.keeps_pde hd₂ hi w)

/-! ### `page_lookup` and `page_remove` -/

/-- `page_lookup` reads the slot of `va`. -/
theorem pageLookup_spec (h : PageInv B σ held free)
    (hd : dirFrame B σ a = some (frameAt pgdir)) (hi : (pdx va).val < 955) :
    (slots B σ (.pte a (pdx va) (ptx va)) = none → pageLookup B pgdir va σ = .ok (none, σ)) ∧
    ∀ p π, slots B σ (.pte a (pdx va) (ptx va)) = some (p, π) →
      ∃ kva t ρ, pageLookup B pgdir va σ = .ok (some (p, kva, ptx va), σ) ∧ frameAt kva = t ∧
        entryOf (σ.mem (frameAt pgdir) (pdx va)) = some (t, ρ) ∧
        entryOf (σ.mem t (ptx va)) = some (p, π) := by
  cases ht : entryOf (σ.mem (frameAt pgdir) (pdx va)) with
  | none =>
    rw [slots_pte_of_none hd ht]
    refine ⟨?_, fun p π hc => by cases hc⟩
    intro _
    simp only [pageLookup, pgdirWalk_absent ht, ok_bind]
    rfl
  | some u =>
    obtain ⟨t, ρ⟩ := u
    have htr := tracked_of_lt hi a
    obtain ⟨kva, hwalk, hkva⟩ := pgdirWalk_present h hd htr ht false
    have hload : σ.load (kva, ptx va) = σ.mem t (ptx va) := by rw [State.load, hkva]
    rw [slots_pte hd hi ht]
    constructor
    · -- a table without an entry for `va`
      intro hn
      have hpres := not_present_of_entryOf hn
      simp only [pageLookup, hwalk, ok_bind, hload, if_neg hpres]
      rfl
    · intro p π hs
      obtain ⟨hpres, hpg, -⟩ := entryOf_eq_some.mp hs
      have hm : B.Managed p := by
        apply h.slot_managed (.pte a (pdx va) (ptx va)) p
        rw [slotRef, slots_pte hd hi ht, hs]
        rfl
      refine ⟨kva, t, ρ, ?_, hkva, rfl, hs⟩
      simp only [pageLookup, hwalk, ok_bind, hload, if_pos hpres]
      rw [pa2page_of_lt (by rw [hpg]; exact hm.1), hpg]
      rfl

theorem tlbInvalidate_keeps (cpu : ℕ) (pgdir va : Word) (σ : State) :
    slots B (tlbInvalidate cpu pgdir va σ) = slots B σ ∧
      Keeps B σ (tlbInvalidate cpu pgdir va σ) ∧
      (tlbInvalidate cpu pgdir va σ).pages = σ.pages ∧
      (tlbInvalidate cpu pgdir va σ).pageFreeList = σ.pageFreeList ∧
      (tlbInvalidate cpu pgdir va σ).mem = σ.mem := by
  -- `invlpg` changes the entries of one processor only
  have hinv : slots B (invlpg cpu va σ) = slots B σ ∧ Keeps B σ (invlpg cpu va σ) := by
    refine ⟨slots_eq_of_mem rfl rfl, rfl, rfl, ?_, fun _ _ _ _ _ => rfl,
      fun _ _ _ _ _ => rfl, fun _ _ => rfl⟩
    intro c
    unfold State.curenv invlpg State.setCpu
    by_cases hc : c = cpu
    · subst hc; simp
    · simp [Function.update_of_ne hc]
  unfold tlbInvalidate
  split
  · exact ⟨hinv.1, hinv.2, rfl, rfl, rfl⟩
  · split
    · exact ⟨hinv.1, hinv.2, rfl, rfl, rfl⟩
    · exact ⟨rfl, Keeps.refl B σ, rfl, rfl, rfl⟩

/-- `page_remove` empties the slot of `va`, and frees the page it referred to when
that was the last reference. -/
theorem pageRemove_spec (h : PageInv B σ held free)
    (hd : dirFrame B σ a = some (frameAt pgdir)) (hi : (pdx va).val < 955)
    (hbound : ∀ p, refs B σ p + held p ≤ 65536) (cpu : ℕ) :
    ∃ σ', pageRemove B cpu pgdir va σ = .ok σ' ∧
      slots B σ' = Function.update (slots B σ) (.pte a (pdx va) (ptx va)) none ∧
      PageInv B σ' held (freeAfterClear B σ held (.pte a (pdx va) (ptx va)) free) ∧
      Keeps B σ σ' := by
  set s : Slot := .pte a (pdx va) (ptx va) with hs
  obtain ⟨hnone, hsome⟩ := pageLookup_spec h hd hi
  cases hslot : slots B σ s with
  | none =>
    refine ⟨σ, ?_, ?_, ?_, Keeps.refl B σ⟩
    · simp only [pageRemove, hnone hslot, ok_bind]
      rfl
    · rw [← hslot, Function.update_eq_self]
    · simpa only [freeAfterClear, hslot] using h
  | some u =>
    obtain ⟨p, π⟩ := u
    obtain ⟨kva, t, ρ, hlook, hkva, ht, hpte⟩ := hsome p π hslot
    have hpres : present (σ.load (kva, ptx va)) = true := by
      rw [State.load, hkva]
      exact (entryOf_eq_some.mp hpte).1
    have hslots₁ : slots B (σ.setWord t (ptx va) 0#32) =
        Function.update (slots B σ) s none := by
      rw [slots_setWord_pte h.separated hd hi ht, entryOf_zero]
    -- the entry is cleared, the page is counted down, and the TLB is told
    set σ₁ := σ.setWord t (ptx va) 0#32 with hσ₁
    have hkeeps₁ : Keeps B σ σ₁ := h.separated.keeps_pte hd hi ht (ptx va) 0#32
    obtain ⟨σ₂, hdec, hsame₂, hinv₂⟩ :=
      pageDecref_cleared h hslot hslots₁ rfl rfl (hbound p)
    obtain ⟨hslots₃, hkeeps₃, hpages₃, hfl₃, hmem₃⟩ :=
      tlbInvalidate_keeps (B := B) cpu pgdir va σ₂
    refine ⟨tlbInvalidate cpu pgdir va σ₂, ?_, ?_, ?_,
      (hkeeps₁.trans hsame₂.keeps).trans hkeeps₃⟩
    · simp only [pageRemove, hlook, ok_bind, if_pos hpres, State.store, hkva]
      rw [← hσ₁, hdec]
      rfl
    · rw [hslots₃, hsame₂.slots, hslots₁]
    · unfold PageInv State.link State.ref
      rw [slotRef_eq_of_slots hslots₃, hpages₃, hfl₃]
      exact hinv₂

/-! ### `page_insert` -/

/-- The free list after page `pp` has been put into the slot `s`: an old mapping of
another page gives up its reference. -/
def freeAfterInsert (B : Boot) (σ : State) (held : ℕ → ℕ) (pp : ℕ) (s : Slot) (free : List ℕ) :
    List ℕ :=
  match slots B σ s with
  | none => free
  | some (q, _) => if q ≠ pp ∧ refs B σ q + held q = 1 then q :: free else free

theorem freeAfterClear_incRef {pp : ℕ} {s : Slot} {σ' : State} (hslots : slots B σ' = slots B σ) :
    freeAfterClear B σ' (held + Pi.single pp 1) s free = freeAfterInsert B σ held pp s free := by
  simp only [freeAfterClear, freeAfterInsert, hslots]
  cases hs : slots B σ s with
  | none => rfl
  | some u =>
    obtain ⟨q, π⟩ := u
    simp only
    rw [refs_eq_of_slots hslots]
    refine if_congr ?_ rfl rfl
    by_cases hq : q = pp
    · -- the page is mapped here already, so two references remain
      subst hq
      have hpos : 0 < refs B σ q := refCount_pos.mpr ⟨s, by rw [slotRef, hs]; rfl⟩
      simp only [Pi.add_apply, Pi.single_eq_same]
      omega
    · simp [hq]

/-- With one more reference in hand, one more than the bound. -/
theorem SameData.refs_incRef_le {σ' : State} {n : ℕ} (h : SameData σ σ')
    (hbound : ∀ p, refs B σ p + held p ≤ n) (pp p : ℕ) :
    refs B σ' p + (held + Pi.single pp 1 : ℕ → ℕ) p ≤ n + 1 := by
  have hb := hbound p
  have hsingle : (Pi.single pp 1 : ℕ → ℕ) p ≤ 1 := by
    rw [Pi.single_apply]
    split <;> omega
  rw [refs_eq_of_slots h.slots, Pi.add_apply]
  omega

/-- The part of `page_insert` after the walk, up to the store: the counter of `pp` is incremented
and an old mapping is removed. Whatever `perm` is, all that is left is to store the entry. -/
theorem pageInsertAt_removed {pp : ℕ} {kva : Word} {ρ : BitVec 12}
    (h : PageInv B σ held free) (hd : dirFrame B σ a = some (frameAt pgdir))
    (hi : (pdx va).val < 955)
    (ht : entryOf (σ.mem (frameAt pgdir) (pdx va)) = some (frameAt kva, ρ))
    (hm : B.Managed pp) (hpp : pp ∉ free) (hbound : ∀ p, refs B σ p + held p ≤ 65535) (cpu : ℕ)
    (perm : Word) :
    ∃ σ', pageInsertAt B cpu pgdir pp va perm (kva, ptx va) σ =
        .ok (0, σ'.store (kva, ptx va) (page2pa pp ||| perm ||| pteP)) ∧
      slots B σ' = Function.update (slots B σ) (.pte a (pdx va) (ptx va)) none ∧
      PageInv B σ' (held + Pi.single pp 1)
        (freeAfterInsert B σ held pp (.pte a (pdx va) (ptx va)) free) ∧
      Keeps B σ σ' := by
  set s : Slot := .pte a (pdx va) (ptx va) with hs
  obtain ⟨hinv₁, hsame₁⟩ := incRef_spec h hm hpp
  set σ₁ := σ.incRef pp with hσ₁
  have hslots₁ : slots B σ₁ = slots B σ := hsame₁.slots
  have hd₁ : dirFrame B σ₁ a = some (frameAt pgdir) := by rw [hsame₁.keeps.dirFrame, hd]
  have hload : σ₁.load (kva, ptx va) = σ.mem (frameAt kva) (ptx va) := by
    rw [State.load, hsame₁.mem]
  have hslot : slots B σ s = entryOf (σ.mem (frameAt kva) (ptx va)) := slots_pte hd hi ht
  by_cases hpres : present (σ₁.load (kva, ptx va)) = true
  · -- `pp_ref` may stand at 65536 references here, one more than it can show
    have hb₁ : ∀ p, refs B σ₁ p + (held + Pi.single pp 1 : ℕ → ℕ) p ≤ 65536 :=
      hsame₁.refs_incRef_le hbound pp
    obtain ⟨σ₂, hrem, hslots₂, hinv₂, hkeeps₂⟩ := pageRemove_spec hinv₁ hd₁ hi hb₁ cpu
    rw [freeAfterClear_incRef hslots₁] at hinv₂
    rw [hslots₁] at hslots₂
    refine ⟨σ₂, ?_, hslots₂, hinv₂, hsame₁.keeps.trans hkeeps₂⟩
    simp only [pageInsertAt, ← hσ₁, if_pos hpres, hrem, ok_bind]
    rfl
  · have hnone : slots B σ s = none := by
      rw [hslot, entryOf_eq_none, ← hload]
      simpa using hpres
    refine ⟨σ₁, ?_, ?_, ?_, hsame₁.keeps⟩
    · simp only [pageInsertAt, ← hσ₁, if_neg hpres]
      rfl
    · rw [← hnone, Function.update_eq_self, hslots₁]
    · simpa only [freeAfterInsert, hnone] using hinv₁

/-- The part of `page_insert` after the walk, from a state in which the page table
of `va` is there. -/
theorem pageInsertAt_spec {pp : ℕ} {perm : Word} {kva : Word} {ρ : BitVec 12}
    (h : PageInv B σ held free) (hd : dirFrame B σ a = some (frameAt pgdir))
    (hi : (pdx va).val < 955)
    (ht : entryOf (σ.mem (frameAt pgdir) (pdx va)) = some (frameAt kva, ρ))
    (hm : B.Managed pp) (hpp : pp ∉ free) (hperm : perm.toNat < 4096)
    (hbound : ∀ p, refs B σ p + held p ≤ 65535) (cpu : ℕ) :
    ∃ σ', pageInsertAt B cpu pgdir pp va perm (kva, ptx va) σ = .ok (0, σ') ∧
      slots B σ' = Function.update (slots B σ) (.pte a (pdx va) (ptx va))
        (some (pp, perm.setWidth 12 ||| 1#12)) ∧
      Keeps B σ σ' ∧
      ((∀ s : Slot, s.IsTable → slotRef B σ s ≠ some pp) →
        PageInv B σ' held
          (freeAfterInsert B σ held pp (.pte a (pdx va) (ptx va)) free)) := by
  obtain ⟨σ₂, hrun, hslots₂, hinv₂, hkeeps₂⟩ :=
    pageInsertAt_removed h hd hi ht hm hpp hbound cpu perm
  set s : Slot := .pte a (pdx va) (ptx va) with hs
  have hd₂ : dirFrame B σ₂ a = some (frameAt pgdir) := by rw [hkeeps₂.dirFrame, hd]
  have htr := tracked_of_lt hi a
  have ht₂ : entryOf (σ₂.mem (frameAt pgdir) (pdx va)) = some (frameAt kva, ρ) := by
    rw [← slots_pde hd₂ htr, hslots₂, Function.update_of_ne (by simp [hs]), slots_pde hd htr, ht]
  -- the new mapping is stored through the pointer of the walk
  have hentry := entryOf_page2pa hm.lt_pow hperm
  set w := page2pa pp ||| perm ||| pteP with hw
  have hslots₃ : slots B (σ₂.setWord (frameAt kva) (ptx va) w) =
      Function.update (slots B σ₂) s (some (pp, perm.setWidth 12 ||| 1#12)) := by
    rw [slots_setWord_pte hinv₂.separated hd₂ hi ht₂, hentry]
  refine ⟨σ₂.setWord (frameAt kva) (ptx va) w, hrun, ?_, ?_, ?_⟩
  · rw [hslots₃, hslots₂, Function.update_idem]
  · exact hkeeps₂.trans (hinv₂.separated.keeps_pte hd₂ hi ht₂ (ptx va) w)
  · -- the reference in hand goes into the emptied slot, which owns nothing
    intro htable
    have hempty : slotRef B σ₂ s = none := by
      rw [slotRef, hslots₂, Function.update_self]
      rfl
    have hshare : ∀ s', s'.IsTable → slotRef B σ₂ s' ≠ some pp := by
      intro s' hs'
      have hne : s' ≠ s := by
        rintro rfl
        exact hs'
      rw [slotRef, hslots₂, Function.update_of_ne hne]
      exact htable s' hs'
    have hfill := hinv₂.fill hempty (fun hex => absurd hex id) hshare
    unfold PageInv
    rw [slotRef_update hslots₃]
    exact hfill

/-- `page_insert` with no page table and no page for one: the state is unchanged. -/
theorem pageInsert_full (h : PageInv B σ held [])
    (ht : entryOf (σ.mem (frameAt pgdir) (pdx va)) = none) (cpu pp : ℕ) (perm : Word) :
    pageInsert B cpu pgdir pp va perm σ = .ok (-eNoMem, σ) := by
  simp only [pageInsert, pgdirWalk_full h ht, ok_bind]
  rfl

/-- `page_insert` with the page table in place. -/
theorem pageInsert_present {pp : ℕ} {perm : Word} (h : PageInv B σ held free)
    (hd : dirFrame B σ a = some (frameAt pgdir)) (hi : (pdx va).val < 955) {t : ℕ × BitVec 12}
    (ht : entryOf (σ.mem (frameAt pgdir) (pdx va)) = some t)
    (hm : B.Managed pp) (hpp : pp ∉ free) (hperm : perm.toNat < 4096)
    (hbound : ∀ p, refs B σ p + held p ≤ 65535) (cpu : ℕ) :
    ∃ σ', pageInsert B cpu pgdir pp va perm σ = .ok (0, σ') ∧
      slots B σ' = Function.update (slots B σ) (.pte a (pdx va) (ptx va))
        (some (pp, perm.setWidth 12 ||| 1#12)) ∧
      Keeps B σ σ' ∧
      ((∀ s : Slot, s.IsTable → slotRef B σ s ≠ some pp) →
        PageInv B σ' held
          (freeAfterInsert B σ held pp (.pte a (pdx va) (ptx va)) free)) := by
  obtain ⟨t, ρ⟩ := t
  obtain ⟨kva, hwalk, rfl⟩ := pgdirWalk_present h hd (tracked_of_lt hi a) ht true
  obtain ⟨σ', hrun, hslots, hkeeps, hinv⟩ :=
    pageInsertAt_spec h hd hi ht hm hpp hperm hbound cpu
  refine ⟨σ', ?_, hslots, hkeeps, hinv⟩
  simp only [pageInsert, hwalk, ok_bind, hrun]

/-- `page_insert` that needs a page table: it takes the first free page. -/
theorem pageInsert_alloc {pp t : ℕ} {perm : Word} (h : PageInv B σ held (t :: free))
    (hd : dirFrame B σ a = some (frameAt pgdir)) (hi : (pdx va).val < 955)
    (ht : entryOf (σ.mem (frameAt pgdir) (pdx va)) = none)
    (hm : B.Managed pp) (hpp : pp ∉ t :: free) (hperm : perm.toNat < 4096)
    (hbound : ∀ p, refs B σ p + held p ≤ 65535) (cpu : ℕ) :
    ∃ σ', pageInsert B cpu pgdir pp va perm σ = .ok (0, σ') ∧
      slots B σ' = Function.update
        (Function.update (slots B σ) (.pde a (pdx va)) (some (t, tablePerm)))
        (.pte a (pdx va) (ptx va)) (some (pp, perm.setWidth 12 ||| 1#12)) ∧
      Keeps B σ σ' ∧
      ((∀ s : Slot, s.IsTable → slotRef B σ s ≠ some pp) → PageInv B σ' held free) := by
  have htr := tracked_of_lt hi a
  obtain ⟨σ₁, kva, hwalk, rfl, hinv₁, hslots₁, -, -, -, ht₁, hzero₁, -, hkeeps₁⟩ :=
    pgdirWalk_alloc h hd htr ht
  have hkeeps₁ := hkeeps₁ hi
  have hd₁ : dirFrame B σ₁ a = some (frameAt pgdir) := by rw [hkeeps₁.dirFrame, hd]
  rw [List.mem_cons, not_or] at hpp
  have hnone : slotRef B σ (.pde a (pdx va)) = none := by rw [slotRef, slots_pde hd htr, ht]; rfl
  have hbound₁ : ∀ p, refs B σ₁ p + held p ≤ 65535 := h.refs_fill_le hnone hslots₁ hbound
  obtain ⟨σ', hrun, hslots, hkeeps, hinv⟩ :=
    pageInsertAt_spec hinv₁ hd₁ hi ht₁ hm hpp.2 hperm hbound₁ cpu
  -- the new table has no old mapping
  have hfresh : slots B σ₁ (.pte a (pdx va) (ptx va)) = none := by
    rw [slots_pte hd₁ hi ht₁, hzero₁, entryOf_zero]
  refine ⟨σ', ?_, by rw [hslots, hslots₁], hkeeps₁.trans hkeeps, ?_⟩
  · simp only [pageInsert, hwalk, ok_bind, hrun]
  · intro htable
    have hinv' := hinv fun s hs => by
      rw [slotRef_update hslots₁]
      by_cases hsp : s = .pde a (pdx va)
      · subst hsp
        rw [Function.update_self]
        exact fun hc => hpp.1 (Option.some.inj hc).symm
      · rw [Function.update_of_ne hsp]
        exact htable s hs
    simpa only [freeAfterInsert, hfresh] using hinv'

end Jos
