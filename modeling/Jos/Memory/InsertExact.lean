import Jos.Memory.AddressSpace

/-!
# What `page_insert` does, exactly

`page_insert` may take a page for a page table, increments one counter, may give back an old
page, and stores an entry through the pointer that its walk returned. `InsertedAt` is the state
between the walk and the store, for every way there; from it follow

* the code it returns and the free list it leaves (`pageInsert_exact`), for any `perm`;
* the counter it leaves. `pp_ref` has 16 bits and is not checked, so the counter is the number
  of references as long as that number fits (`InsertFits`). In runs that respect this no page
  with a mapping is ever on the free list (`refCount_exact_iff`); the 65536th mapping of a page
  brings its counter back to 0 (`refCount_wraps`).
-/

namespace Jos

variable {B : Boot} {σ σ' σ₁ σ₂ : State} {free free₁ : List ℕ} {efree : List (Fin nenv)} {a : Space}
  {pgdir va kva : Word} {pp : ℕ}

/-! ### Between the walk and the store -/

/-- `page_insert` has walked to the entry of `va` in the table at `kva`, which has led to `σ₁`,
and then incremented the counter and removed an old mapping, which has led to `σ₂`. -/
structure InsertedAt (B : Boot) (a : Space) (pgdir va : Word) (pp : ℕ) (kva : Word) (σ₁ : State)
    (free₁ : List ℕ) (σ₂ : State) : Prop where
  walked : GlobalInv B σ₁ free₁
  dir : dirFrame B σ₁ a = some (frameAt pgdir)
  table : ∃ ρ, entryOf (σ₁.mem (frameAt pgdir) (pdx va)) = some (frameAt kva, ρ)
  managed : B.Managed pp
  slots : slots B σ₂ = Function.update (slots B σ₁) (.pte a (pdx va) (ptx va)) none
  inv : PageInv B σ₂ (Pi.single pp 1)
    (freeAfterInsert B σ₁ 0 pp (.pte a (pdx va) (ptx va)) free₁)
  keeps : Keeps B σ₁ σ₂

theorem InsertedAt.of_table {ρ : BitVec 12} (h : GlobalInv B σ free)
    (hd : dirFrame B σ a = some (frameAt pgdir)) (hi : (pdx va).val < 955)
    (ht : entryOf (σ.mem (frameAt pgdir) (pdx va)) = some (frameAt kva, ρ)) (hm : B.Managed pp)
    (hpp : pp ∉ free) (cpu : ℕ) (perm : Word) :
    ∃ σ₂, pageInsertAt B cpu pgdir pp va perm (kva, ptx va) σ =
        .ok (0, σ₂.store (kva, ptx va) (page2pa pp ||| perm ||| pteP)) ∧
      InsertedAt B a pgdir va pp kva σ free σ₂ := by
  obtain ⟨σ₂, hrun, hslots, hinv, hkeeps⟩ :=
    pageInsertAt_removed h.page hd hi ht hm hpp h.bound_held cpu perm
  rw [zero_add] at hinv
  exact ⟨σ₂, hrun, h, hd, ⟨ρ, ht⟩, hm, hslots, hinv, hkeeps⟩

/-- The ways through `page_insert`: no page for a page table, the table is there, or the first
free page becomes the table. -/
theorem GlobalInv.pageInsert_cases (h : GlobalInv B σ free)
    (hd : dirFrame B σ a = some (frameAt pgdir)) (hva : va < utop) (hpp : Allocated B σ pp)
    (cpu : ℕ) (perm : Word) :
    (entryOf (σ.mem (frameAt pgdir) (pdx va)) = none ∧ free = [] ∧
      pageInsert B cpu pgdir pp va perm σ = .ok (-eNoMem, σ)) ∨
    ∃ kva σ₁ free₁ σ₂, pageInsert B cpu pgdir pp va perm σ =
        .ok (0, σ₂.store (kva, ptx va) (page2pa pp ||| perm ||| pteP)) ∧
      InsertedAt B a pgdir va pp kva σ₁ free₁ σ₂ ∧
      ((σ₁ = σ ∧ free₁ = free ∧ entryOf (σ.mem (frameAt pgdir) (pdx va)) ≠ none) ∨
        ∃ t, free = t :: free₁ ∧ entryOf (σ.mem (frameAt pgdir) (pdx va)) = none ∧
          Jos.slots B σ₁ =
            Function.update (Jos.slots B σ) (.pde a (pdx va)) (some (t, tablePerm))) := by
  have hi := (lt_utop_iff va).mp hva
  have htr := tracked_of_lt hi a
  have hfree := h.notMem_free hpp
  cases ht : entryOf (σ.mem (frameAt pgdir) (pdx va)) with
  | some t =>
    -- the walk changes nothing
    obtain ⟨t, ρ⟩ := t
    obtain ⟨kva, hwalk, rfl⟩ := pgdirWalk_present h.page hd htr ht true
    obtain ⟨σ₂, hrun, hins⟩ := InsertedAt.of_table h hd hi ht hpp.1 hfree cpu perm
    refine Or.inr ⟨kva, σ, free, σ₂, ?_, hins, Or.inl ⟨rfl, rfl, by simp⟩⟩
    simp only [pageInsert, hwalk, ok_bind, hrun]
  | none =>
    cases free with
    | nil => exact Or.inl ⟨rfl, rfl, pageInsert_full h.page ht cpu pp perm⟩
    | cons t free =>
      obtain ⟨σ₁, kva, hwalk, rfl, hinv₁, hslots₁, henvs, -, -, ht₁, -⟩ :=
        pgdirWalk_alloc h.page hd htr ht
      have hnone : slotRef B σ (.pde a (pdx va)) = none := by
        rw [slotRef, slots_pde hd htr, ht]
        rfl
      have hglobal : GlobalInv B σ₁ free :=
        ⟨hinv₁, fun p => by
          simpa only [Pi.zero_apply, add_zero] using
            h.page.refs_fill_le hnone hslots₁ h.bound_held p⟩
      obtain ⟨σ₂, hrun, hins⟩ := InsertedAt.of_table hglobal
        (by rw [dirFrame_congr henvs, hd]) hi ht₁ hpp.1
        (fun hc => hfree (List.mem_cons_of_mem _ hc)) cpu perm
      refine Or.inr ⟨kva, σ₁, free, σ₂, ?_, hins, Or.inr ⟨_, rfl, rfl, hslots₁⟩⟩
      simp only [pageInsert, hwalk, ok_bind, hrun]

namespace InsertedAt

/-- A page that gives up its mapping is counted once less. -/
theorem refs_old (h : InsertedAt B a pgdir va pp kva σ₁ free₁ σ₂) {q : ℕ} {π : BitVec 12}
    (hold : Jos.slots B σ₁ (.pte a (pdx va) (ptx va)) = some (q, π)) (p : ℕ) :
    refs B σ₂ p + (if q = p then 1 else 0) = refs B σ₁ p := by
  have href : slotRef B σ₁ (.pte a (pdx va) (ptx va)) = some q := by
    rw [slotRef, hold]
    rfl
  rw [refs, slotRef_update h.slots]
  exact refCount_update_none href p

/-- The counter of another page reads 0 exactly when no reference to it is left. -/
theorem ref_eq_zero_iff (h : InsertedAt B a pgdir va pp kva σ₁ free₁ σ₂) {q : ℕ} (hq : q ≠ pp)
    (hm : B.Managed q) : σ₂.ref q = 0#16 ↔ refs B σ₂ q = 0 := by
  have hcount : σ₂.ref q = BitVec.ofNat 16 (refs B σ₂ q + (Pi.single pp 1 : ℕ → ℕ) q) :=
    h.inv.count q hm
  rw [Pi.single_eq_of_ne hq, add_zero] at hcount
  have hle : refs B σ₂ q ≤ refs B σ₁ q := by
    rw [refs, slotRef_update h.slots]
    apply refCount_mono
    intro s
    by_cases hs : s = .pte a (pdx va) (ptx va)
    · subst hs
      exact Or.inl (Function.update_self ..)
    · exact Or.inr (Function.update_of_ne hs ..)
  have hbound := h.walked.bound q
  rw [hcount, ← BitVec.toNat_inj, BitVec.toNat_ofNat, BitVec.toNat_ofNat]
  omega

end InsertedAt

/-! ### The code and the free list -/

/-- What `page_insert` returns, and the free list `free'` it leaves when it had `free`. -/
structure InsertExact (B : Boot) (pgdir : Word) (pp : ℕ) (va : Word) (σ : State) (free : List ℕ)
    (r : ℤ) (σ' : State) (free' : List ℕ) : Prop where
  chain : Chain σ'.link σ'.pageFreeList free'
  code : r = -eNoMem ↔ present (σ.load (pgdir, pdx va)) = false ∧ σ.pageFreeList = none
  unchanged : r = -eNoMem → σ' = σ
  zero : r ≠ -eNoMem → r = 0
  /-- A page table is the first free page, and nothing else happens to the list. -/
  taken : r = 0 → present (σ.load (pgdir, pdx va)) = false → ∃ t, free = t :: free'
  /-- The page that was mapped at `va` is pushed when it is another one and its count drops
  to 0. -/
  pushed : r = 0 → present (σ.load (pgdir, pdx va)) = true →
    ∀ q π, dirMap σ (frameAt pgdir) (pgnum va) = some (q, π) →
      q ≠ pp ∧ σ'.ref q = 0#16 → free' = q :: free
  kept : r = 0 → present (σ.load (pgdir, pdx va)) = true →
    (∀ q π, dirMap σ (frameAt pgdir) (pgnum va) = some (q, π) → ¬(q ≠ pp ∧ σ'.ref q = 0#16)) →
      free' = free

theorem present_load_iff : present (σ.load (pgdir, pdx va)) = false ↔
    entryOf (σ.mem (frameAt pgdir) (pdx va)) = none := entryOf_eq_none.symm

/-- The free list once the old mapping is gone, read off the counter. -/
theorem InsertedAt.freeAfterInsert_eq (h : InsertedAt B a pgdir va pp kva σ₁ free₁ σ₂) {q : ℕ}
    {π : BitVec 12} (hold : Jos.slots B σ₁ (.pte a (pdx va) (ptx va)) = some (q, π)) :
    freeAfterInsert B σ₁ 0 pp (.pte a (pdx va) (ptx va)) free₁ =
      if q ≠ pp ∧ σ₂.ref q = 0#16 then q :: free₁ else free₁ := by
  have hm : B.Managed q := h.walked.page.slot_managed _ q (by rw [slotRef, hold]; rfl)
  have hrefs := h.refs_old hold q
  rw [if_pos rfl] at hrefs
  simp only [freeAfterInsert, hold]
  refine if_congr (and_congr_right fun hq => ?_) rfl rfl
  rw [h.ref_eq_zero_iff hq hm, Pi.zero_apply]
  omega

/-- In every state that satisfies the page invariant `page_insert` fails exactly when it needs a
page table and there is no free page, and then it changes nothing; otherwise it takes one page
from the head of the free list for the table, or it gives back the page that was mapped at
`va`. -/
theorem pageInsert_exact (h : GlobalInv B σ free) (hd : dirFrame B σ a = some (frameAt pgdir))
    (hva : va < utop) (hpp : Allocated B σ pp) (cpu : ℕ) (perm : Word) :
    ∃ r σ' free', pageInsert B cpu pgdir pp va perm σ = .ok (r, σ') ∧
      InsertExact B pgdir pp va σ free r σ' free' := by
  have hi := (lt_utop_iff va).mp hva
  have hlist : σ.pageFreeList = none ↔ free = [] := h.page.chain.head_none_iff
  have hne : (0 : ℤ) ≠ -eNoMem := by decide
  obtain ⟨hnone, rfl, hrun⟩ | ⟨kva, σ₁, free₁, σ₂, hrun, hins, hcase⟩ :=
    h.pageInsert_cases hd hva hpp cpu perm
  · refine ⟨-eNoMem, σ, [], hrun, h.page.chain, ?_, fun _ => rfl, fun hc => absurd rfl hc,
      fun hc => absurd hc.symm hne, fun hc => absurd hc.symm hne, fun hc => absurd hc.symm hne⟩
    exact ⟨fun _ => ⟨present_load_iff.mpr hnone, hlist.mpr rfl⟩, fun _ => rfl⟩
  · refine ⟨0, _, freeAfterInsert B σ₁ 0 pp (.pte a (pdx va) (ptx va)) free₁, hrun, hins.inv.chain,
      ?_, fun hc => absurd hc hne, fun _ => rfl, ?_, ?_, ?_⟩
    · -- the insertion has not failed, and did not have to
      refine ⟨fun hc => absurd hc hne, fun ⟨habs, hnil⟩ => ?_⟩
      rw [present_load_iff] at habs
      rw [hlist] at hnil
      obtain ⟨-, -, hpres⟩ | ⟨t, ht, -⟩ := hcase
      · exact absurd habs hpres
      · rw [hnil] at ht
        cases ht
    · intro _ habs
      rw [present_load_iff] at habs
      obtain ⟨-, -, hpres⟩ | ⟨t, ht, -, hslots₁⟩ := hcase
      · exact absurd habs hpres
      · -- a new table has no old mapping
        have hfresh : slots B σ₁ (.pte a (pdx va) (ptx va)) = none := by
          rw [hslots₁, Function.update_of_ne (by simp), slots_pte_of_none hd habs]
        exact ⟨t, by simpa only [freeAfterInsert, hfresh] using ht⟩
    all_goals
      intro _ hpres
      obtain ⟨rfl, rfl, -⟩ | ⟨t, -, habs, -⟩ := hcase
    · intro q π hold hpush
      rw [dirMap_pgnum hd hva] at hold
      rw [hins.freeAfterInsert_eq hold]
      exact if_pos hpush
    · rw [present_load_iff.mpr habs] at hpres
      cases hpres
    · intro hkept
      rw [dirMap_pgnum hd hva] at hkept
      cases hold : slots B σ₁ (.pte a (pdx va) (ptx va)) with
      | none => simp only [freeAfterInsert, hold]
      | some u =>
        rw [hins.freeAfterInsert_eq hold]
        exact if_neg (hkept u.1 u.2 hold)
    · rw [present_load_iff.mpr habs] at hpres
      cases hpres

theorem pageInsert_exact_smallMachine : ∃ σ free pp r σ' free', GlobalInv smallMachine σ free ∧
    Allocated smallMachine σ pp ∧
    pageInsert smallMachine 0 smallMachine.kernPgdir pp 0#32 pteU σ = .ok (r, σ') ∧
    InsertExact smallMachine smallMachine.kernPgdir pp 0#32 σ free r σ' free' := by
  obtain ⟨σ, free, pp, hinv, hpp⟩ := smallMachine_allocated
  obtain ⟨r, σ', free', hrun, hexact⟩ :=
    pageInsert_exact (a := none) hinv rfl (by decide : (0#32 : Word) < utop) hpp 0 pteU
  exact ⟨σ, free, pp, r, σ', free', hinv, hpp, hrun, hexact⟩

/-! ### The counter -/

/-- One more mapping of `pp` at `va` can be counted: there are fewer than 65535 references, or
the page is mapped there already, or the insertion fails. -/
def InsertFits (B : Boot) (pgdir : Word) (pp : ℕ) (va : Word) (σ : State) : Prop :=
  refs B σ pp < 65535 ∨ (dirMap σ (frameAt pgdir) (pgnum va)).map Prod.fst = some pp ∨
    present (σ.load (pgdir, pdx va)) = false ∧ σ.pageFreeList = none

/-- `page_insert` has failed and changed nothing, or the counter of `pp` is the number of its
references. -/
def InsertCounts (B : Boot) (pp : ℕ) (σ : State) (r : ℤ) (σ' : State) : Prop :=
  r < 0 ∧ σ' = σ ∨ (σ'.ref pp).toNat = refs B σ' pp

namespace InsertedAt

variable {perm : Word}

/-- The slots once the entry is stored. -/
theorem slots_store (h : InsertedAt B a pgdir va pp kva σ₁ free₁ σ₂) (hva : va < utop)
    (hperm : perm.toNat < 4096) :
    Jos.slots B (σ₂.store (kva, ptx va) (page2pa pp ||| perm ||| pteP)) =
      Function.update (Jos.slots B σ₁) (.pte a (pdx va) (ptx va))
        (some (pp, perm.setWidth 12 ||| 1#12)) := by
  have hi := (lt_utop_iff va).mp hva
  have htr := tracked_of_lt hi a
  obtain ⟨ρ, ht⟩ := h.table
  have hd₂ : dirFrame B σ₂ a = some (frameAt pgdir) := by rw [h.keeps.dirFrame, h.dir]
  have ht₂ : entryOf (σ₂.mem (frameAt pgdir) (pdx va)) = some (frameAt kva, ρ) := by
    rw [← slots_pde hd₂ htr, h.slots, Function.update_of_ne (by simp), slots_pde h.dir htr, ht]
  rw [State.store, slots_setWord_pte h.inv.separated hd₂ hi ht₂,
    entryOf_page2pa h.managed.lt_pow hperm, h.slots, Function.update_idem]

/-- The number of references once the entry is stored. -/
theorem refs_store (h : InsertedAt B a pgdir va pp kva σ₁ free₁ σ₂) (hva : va < utop)
    (hperm : perm.toNat < 4096) (p : ℕ) :
    refs B (σ₂.store (kva, ptx va) (page2pa pp ||| perm ||| pteP)) p +
        (if slotRef B σ₁ (.pte a (pdx va) (ptx va)) = some p then 1 else 0) =
      refs B σ₁ p + (if pp = p then 1 else 0) := by
  have hup := refCount_update (slotRef B σ₁) (.pte a (pdx va) (ptx va)) (some pp) p
  simp only [Option.some.injEq] at hup
  rw [refs, slotRef_update (h.slots_store hva hperm)]
  exact hup

/-- The counter is the number of references, modulo its capacity. -/
theorem ref_eq (h : InsertedAt B a pgdir va pp kva σ₁ free₁ σ₂) (hva : va < utop)
    (hperm : perm.toNat < 4096) :
    (σ₂.store (kva, ptx va) (page2pa pp ||| perm ||| pteP)).ref pp =
      BitVec.ofNat 16 (refs B (σ₂.store (kva, ptx va) (page2pa pp ||| perm ||| pteP)) pp) := by
  have hcount : σ₂.ref pp = BitVec.ofNat 16 (refs B σ₂ pp + (Pi.single pp 1 : ℕ → ℕ) pp) :=
    h.inv.count pp h.managed
  rw [Pi.single_eq_same] at hcount
  -- the slot was empty, so storing the entry adds one
  have hempty : slotRef B σ₂ (.pte a (pdx va) (ptx va)) = none := by
    rw [slotRef, h.slots, Function.update_self]
    rfl
  have hslots : Jos.slots B (σ₂.store (kva, ptx va) (page2pa pp ||| perm ||| pteP)) =
      Function.update (Jos.slots B σ₂) (.pte a (pdx va) (ptx va))
        (some (pp, perm.setWidth 12 ||| 1#12)) := by
    rw [h.slots_store hva hperm, h.slots, Function.update_idem]
  have hfill := refCount_update_some hempty pp pp
  rw [if_pos rfl] at hfill
  rw [refs, slotRef_update hslots]
  exact hcount.trans (congrArg (BitVec.ofNat 16) hfill.symm)

end InsertedAt

/-- A new page table is neither `pp` nor a mapping. -/
theorem GlobalInv.refs_of_walk (h : GlobalInv B σ free)
    (hd : dirFrame B σ a = some (frameAt pgdir)) (hva : va < utop) (hpp : Allocated B σ pp)
    {t : ℕ} (ht : t ∈ free) (habs : entryOf (σ.mem (frameAt pgdir) (pdx va)) = none)
    (hslots : slots B σ' = Function.update (slots B σ) (.pde a (pdx va)) (some (t, tablePerm))) :
    refs B σ' pp = refs B σ pp ∧
      slotRef B σ' (.pte a (pdx va) (ptx va)) = slotRef B σ (.pte a (pdx va) (ptx va)) := by
  have hne : t ≠ pp := fun hc => h.notMem_free hpp (hc ▸ ht)
  have hempty : slotRef B σ (.pde a (pdx va)) = none := by
    rw [slotRef, slots_pde hd (tracked_of_lt ((lt_utop_iff va).mp hva) a), habs]
    rfl
  rw [refs, slotRef_update hslots]
  constructor
  · have hfill := refCount_update_some hempty t pp
    rwa [if_neg hne, add_zero] at hfill
  · rw [Function.update_of_ne (by simp)]

/-- `page_insert` leaves the counter right exactly when the new mapping can be counted, and then
no counter is above its capacity. -/
theorem GlobalInv.insert_counts (h : GlobalInv B σ free)
    (hd : dirFrame B σ a = some (frameAt pgdir)) (hva : va < utop) {perm : Word}
    (hperm : perm.toNat < 4096) (hpp : Allocated B σ pp) (cpu : ℕ) :
    ∃ r σ', pageInsert B cpu pgdir pp va perm σ = .ok (r, σ') ∧
      (InsertCounts B pp σ r σ' ↔ InsertFits B pgdir pp va σ) ∧
      (InsertFits B pgdir pp va σ → ∀ p, refs B σ' p ≤ 65535) := by
  have hlist : σ.pageFreeList = none ↔ free = [] := h.page.chain.head_none_iff
  obtain ⟨hnone, rfl, hrun⟩ | ⟨kva, σ₁, free₁, σ₂, hrun, hins, hcase⟩ :=
    h.pageInsert_cases hd hva hpp cpu perm
  · refine ⟨-eNoMem, σ, hrun, ?_, fun _ => h.bound⟩
    exact ⟨fun _ => Or.inr (Or.inr ⟨present_load_iff.mpr hnone, hlist.mpr rfl⟩),
      fun _ => Or.inl ⟨by decide, rfl⟩⟩
  · refine ⟨0, _, hrun, ?_⟩
    have hwalk : refs B σ₁ pp = refs B σ pp ∧
        slotRef B σ₁ (.pte a (pdx va) (ptx va)) = slotRef B σ (.pte a (pdx va) (ptx va)) ∧
        ¬(present (σ.load (pgdir, pdx va)) = false ∧ σ.pageFreeList = none) := by
      rw [hlist, present_load_iff]
      obtain ⟨rfl, -, hpres⟩ | ⟨t, rfl, habs, hslots₁⟩ := hcase
      · exact ⟨rfl, rfl, fun hc => hpres hc.1⟩
      · obtain ⟨hrefs, hslot⟩ := h.refs_of_walk hd hva hpp List.mem_cons_self habs hslots₁
        exact ⟨hrefs, hslot, fun hc => by cases hc.2⟩
    obtain ⟨hrefs, hslot, hok⟩ := hwalk
    have hcount := hins.refs_store hva hperm
    have hpp' := hcount pp
    rw [if_pos rfl, hrefs, hslot] at hpp'
    have hbound := h.bound pp
    -- the new number of references fits the counter exactly when it should
    have hfits : InsertFits B pgdir pp va σ ↔
        refs B (σ₂.store (kva, ptx va) (page2pa pp ||| perm ||| pteP)) pp ≤ 65535 := by
      rw [InsertFits, dirMap_pgnum hd hva, ← slotRef]
      constructor
      · rintro (hlt | hmap | hfail)
        · omega
        · rw [if_pos hmap] at hpp'
          omega
        · exact absurd hfail hok
      · intro hle
        by_cases hmap : slotRef B σ (.pte a (pdx va) (ptx va)) = some pp
        · exact Or.inr (Or.inl hmap)
        · rw [if_neg hmap] at hpp'
          exact Or.inl (by omega)
    constructor
    · rw [InsertCounts, hfits, hins.ref_eq hva hperm, BitVec.toNat_ofNat]
      omega
    · intro hf p
      by_cases hp : pp = p
      · exact hp ▸ hfits.mp hf
      · have hle := hcount p
        have hb := hins.walked.bound p
        rw [if_neg hp] at hle
        omega

/-! ### Runs of insertions and removals -/

/-- The page directory of a space: `kern_pgdir` or `env_pgdir`. -/
def pgdirOf (B : Boot) (σ : State) : Space → Word
  | none => B.kernPgdir
  | some e => (σ.envs e).envPgdir

theorem dirFrame_pgdirOf (h : dirFrame B σ a ≠ none) :
    dirFrame B σ a = some (frameAt (pgdirOf B σ a)) := by
  cases a with
  | none => rfl
  | some e =>
    by_cases hfree : (σ.envs e).envStatus = .free ∨ (σ.envs e).envPgdir = 0#32
    · exact absurd (if_pos hfree) h
    · exact if_neg hfree

/-- The operations that map and unmap pages, for the directory of any space. -/
inductive MapOp where
  | pageInsert (cpu : ℕ) (a : Space) (pp : ℕ) (va perm : Word)
  | pageRemove (cpu : ℕ) (a : Space) (va : Word)

/-- What the caller of an operation promises. -/
def MapOp.Allowed (B : Boot) (σ : State) : MapOp → Prop
  | .pageInsert _ a pp va perm =>
    dirFrame B σ a ≠ none ∧ va < utop ∧ perm.toNat < 4096 ∧ Allocated B σ pp ∧ ¬IsTablePage B σ pp
  | .pageRemove _ a va => dirFrame B σ a ≠ none ∧ va < utop

def MapOp.exec (B : Boot) (σ : State) : MapOp → Except Panic State
  | .pageInsert cpu a pp va perm =>
    (Jos.pageInsert B cpu (pgdirOf B σ a) pp va perm σ).map Prod.snd
  | .pageRemove cpu a va => Jos.pageRemove B cpu (pgdirOf B σ a) va σ

/-- A `page_insert` or `page_remove` that its caller may do and that returns, whatever the
counters are. -/
structure CountStep (B : Boot) (σ : State) (op : MapOp) (σ' : State) : Prop where
  allowed : op.Allowed B σ
  exec : op.exec B σ = .ok σ'

/-- A mapping that is made can be counted. -/
def CanCount (B : Boot) (σ : State) (op : MapOp) : Prop :=
  ∀ cpu a pp va perm, op = .pageInsert cpu a pp va perm → InsertFits B (pgdirOf B σ a) pp va σ

/-- Inserting a page keeps the page invariant, if the new mapping can be counted. -/
theorem GlobalInv.insert_inv (h : GlobalInv B σ free)
    (hd : dirFrame B σ a = some (frameAt pgdir)) (hva : va < utop) {perm : Word}
    (hperm : perm.toNat < 4096) (hpp : Allocated B σ pp) (htab : ¬IsTablePage B σ pp) (cpu : ℕ)
    {r : ℤ} (hrun : pageInsert B cpu pgdir pp va perm σ = .ok (r, σ'))
    (hfits : InsertFits B pgdir pp va σ) : ∃ free', GlobalInv B σ' free' := by
  have hi := (lt_utop_iff va).mp hva
  have hfree := h.notMem_free hpp
  have hnt : ∀ s : Slot, s.IsTable → slotRef B σ s ≠ some pp := fun s hs hc => htab ⟨s, hs, hc⟩
  obtain ⟨_, _, hrun', -, hbound⟩ := h.insert_counts hd hva hperm hpp cpu
  obtain ⟨-, rfl⟩ := ok_unique_pair hrun hrun'
  cases ht : entryOf (σ.mem (frameAt pgdir) (pdx va)) with
  | some t =>
    obtain ⟨_, hrun', -, -, hinv⟩ :=
      pageInsert_present h.page hd hi ht hpp.1 hfree hperm h.bound_held cpu
    obtain ⟨-, rfl⟩ := ok_unique_pair hrun hrun'
    exact ⟨_, hinv hnt, hbound hfits⟩
  | none =>
    cases free with
    | nil =>
      obtain ⟨-, rfl⟩ := ok_unique_pair hrun (pageInsert_full h.page ht cpu pp perm)
      exact ⟨[], h⟩
    | cons t free =>
      obtain ⟨_, hrun', -, -, hinv⟩ :=
        pageInsert_alloc h.page hd hi ht hpp.1 hfree hperm h.bound_held cpu
      obtain ⟨-, rfl⟩ := ok_unique_pair hrun hrun'
      exact ⟨free, hinv hnt, hbound hfits⟩

/-- Removing a mapping keeps it in any case. -/
theorem GlobalInv.remove_inv (h : GlobalInv B σ free)
    (hd : dirFrame B σ a = some (frameAt pgdir)) (hva : va < utop) (cpu : ℕ) :
    ∃ σ' free', pageRemove B cpu pgdir va σ = .ok σ' ∧ GlobalInv B σ' free' ∧
      slots B σ' = Function.update (slots B σ) (.pte a (pdx va) (ptx va)) none := by
  obtain ⟨σ', hrun, hslots, hinv, -⟩ := pageRemove_spec h.page hd ((lt_utop_iff va).mp hva)
    (fun p => (h.bound_held p).trans (by decide)) cpu
  refine ⟨σ', _, hrun, ⟨hinv, fun p => ?_⟩, hslots⟩
  refine le_trans ?_ (h.bound p)
  rw [refs, slotRef_update hslots]
  -- a slot is cleared, so no count grows
  apply refCount_mono
  intro s
  by_cases hsl : s = .pte a (pdx va) (ptx va)
  · subst hsl
    exact Or.inl (Function.update_self ..)
  · exact Or.inr (Function.update_of_ne hsl ..)

theorem CountStep.inv {op : MapOp} (hs : CountStep B σ op σ') (h : GlobalInv B σ free)
    (hc : CanCount B σ op) : ∃ free', GlobalInv B σ' free' := by
  obtain ⟨hal, hex⟩ := hs
  cases op with
  | pageInsert cpu a pp va perm =>
    obtain ⟨hdir, hva, hperm, hpp, htab⟩ := hal
    obtain ⟨⟨r, _⟩, hrun, rfl⟩ := map_eq_ok.mp hex
    exact h.insert_inv (dirFrame_pgdirOf hdir) hva hperm hpp htab cpu hrun
      (hc cpu a pp va perm rfl)
  | pageRemove cpu a va =>
    obtain ⟨σ₁, free₁, hrun, hinv, -⟩ := h.remove_inv (dirFrame_pgdirOf hal.1) hal.2 cpu
    obtain rfl := ok_unique hrun hex
    exact ⟨free₁, hinv⟩

/-- As long as every new mapping can be counted, insertions and removals keep the invariant. -/
theorem GlobalInv.map_run {ops : List MapOp} (h : GlobalInv B σ free)
    (hrun : Run (CountStep B) σ ops σ') (hc : Run.Meets (CountStep B) σ ops (CanCount B)) :
    ∃ free', GlobalInv B σ' free' := by
  refine hrun.invariant_of_meets (I := fun σ => ∃ free, GlobalInv B σ free) ?_ ⟨free, h⟩ hc
  rintro s op s' ⟨free, hs⟩ hstep hcount
  exact hstep.inv hs hcount

/-- A page is allocated and mapped where there is no page table yet. -/
theorem MemInv.mapNew {e : Fin nenv} {t : ℕ} {perm : Word}
    (h : MemInv B σ (pp :: t :: free) efree) (he : Live σ e) (hva : va < utop)
    (hperm : perm.toNat < 4096) (hnone : slots B σ (.pde (some e) (pdx va)) = none) (cpu : ℕ) :
    ∃ σ₁ σ', MemStep B σ (.pageAlloc 0#32) σ₁ ∧
      MemStep B σ₁ (.pageInsert cpu e pp va perm) σ' ∧ MemInv B σ' free efree ∧ Keeps B σ σ' ∧
      slots B σ' = Function.update
        (Function.update (slots B σ) (.pde (some e) (pdx va)) (some (t, tablePerm)))
        (.pte (some e) (pdx va) (ptx va)) (some (pp, perm.setWidth 12 ||| 1#12)) := by
  have hi := (lt_utop_iff va).mp hva
  obtain ⟨σ₁, halloc, hpage, hslots, hkeeps, -⟩ := pageAlloc_spec h.page 0#32
  have hrefs (q : ℕ) : refs B σ₁ q = refs B σ q := refs_eq_of_slots hslots q
  have hinv : MemInv B σ₁ (t :: free) efree :=
    h.of_keeps hpage hkeeps (fun q => (hrefs q).trans_le (h.bound q)) fun i => by rw [hslots]
  have hlive : Live σ₁ e := by rwa [Live, hkeeps.envs]
  have hd := hinv.env.dirFrame_live (B := B) hlive
  have hm : B.Managed pp := h.page.free_managed pp List.mem_cons_self
  have hfree : pp ∉ t :: free := (List.nodup_cons.mp h.page.chain.nodup).1
  have hpp : Allocated B σ₁ pp := ⟨hm, fun hc => hfree ((hpage.onFreeList_iff pp).mp hc)⟩
  -- nothing refers to the page yet
  have hnt : ∀ s, slotRef B σ₁ s ≠ some pp := by
    intro s hs
    rw [slotRef_eq_of_slots hslots] at hs
    exact h.page.notMem_of_slot hs List.mem_cons_self
  have ht : entryOf (σ₁.mem (frameAt (σ₁.envs e).envPgdir) (pdx va)) = none := by
    rw [← slots_pde hd (tracked_of_lt hi _), hslots, hnone]
  obtain ⟨σ', hrun, hslots', hkeeps', hpage'⟩ :=
    pageInsert_alloc hpage hd hi ht hm hfree hperm hinv.bound_held cpu
  obtain ⟨_, _, hrun', -, hbound⟩ := hinv.insert_counts hd hva hperm hpp cpu
  obtain ⟨-, rfl⟩ := ok_unique_pair hrun hrun'
  have hbound' := hbound (.inl (by
    rw [hrefs, refs, refCount_eq_zero.mpr fun s hs => hnt s ?_]
    · decide
    · rwa [slotRef_eq_of_slots hslots]))
  rw [hslots] at hslots'
  refine ⟨σ₁, σ', ⟨trivial, congrArg (Except.map Prod.snd) halloc, hinv.bound⟩,
    ⟨⟨hlive, hva, hperm, hpp, not_exists.mpr fun s hs => hnt s hs.2⟩,
      congrArg (Except.map Prod.snd) hrun, hbound'⟩,
    hinv.of_keeps (hpage' fun s _ => hnt s) hkeeps' hbound' fun i => ?_,
    hkeeps.trans hkeeps', hslots'⟩
  rw [hslots', hslots, Function.update_of_ne (by simp), Function.update_of_ne (by simp)]

/-! ### A page with 65535 mappings -/

/-- Page `pp` is mapped at the first `k` pages of the kernel's page directory and nowhere else;
the directory has `m` page tables, and there are free pages for those that are missing to 64. -/
structure Packed (B : Boot) (k m pp : ℕ) (σ : State) (free : List ℕ) : Prop where
  inv : GlobalInv B σ free
  managed : B.Managed pp
  notMem : pp ∉ free
  noTable : ∀ s : Slot, s.IsTable → slotRef B σ s ≠ some pp
  refs : refs B σ pp = k
  empty : ∀ i j : Fin 1024, k ≤ i.val * 1024 + j.val → slots B σ (.pte none i j) = none
  tables : ∀ i : Fin 1024, i.val < 955 → (slots B σ (.pde none i) = none ↔ m ≤ i.val)
  room : 64 ≤ free.length + m

/-- The address of the page with number `k`. -/
def vaOf (k : ℕ) : Word := BitVec.ofNat 32 (k * 4096)

section Packed

variable {k m : ℕ}

theorem vaOf_indices (hk : k < 65536) :
    vaOf k < utop ∧ (pdx (vaOf k)).val = k / 1024 ∧ (ptx (vaOf k)).val = k % 1024 := by
  have hnat : (vaOf k).toNat = k * 4096 := by
    rw [vaOf, BitVec.toNat_ofNat]
    omega
  rw [lt_utop_iff, pdx_val, ptx_val, hnat]
  omega

theorem Packed.allocated (h : Packed B k m pp σ free) : Allocated B σ pp :=
  ⟨h.managed, fun hc => h.notMem ((h.inv.page.onFreeList_iff pp).mp hc)⟩

/-- One more page table. -/
theorem Packed.walk (h : Packed B k m pp σ free) (hm : m < 64) :
    ∃ σ' free', Packed B k (m + 1) pp σ' free' := by
  obtain ⟨hva, hpdx, -⟩ := vaOf_indices (show m * 1024 < 65536 by omega)
  rw [Nat.mul_div_cancel m (by decide)] at hpdx
  have hi := (lt_utop_iff _).mp hva
  have htr := tracked_of_lt hi none
  have hd : dirFrame B σ none = some (frameAt B.kernPgdir) := rfl
  have habs := (h.tables _ hi).mpr hpdx.ge
  have hroom := h.room
  cases free with
  | nil =>
    rw [List.length_nil] at hroom
    omega
  | cons t free =>
    obtain ⟨σ', kva, -, -, hinv, hslots, -⟩ :=
      pgdirWalk_alloc h.inv.page hd htr (by rwa [slots_pde hd htr] at habs)
    have hempty : slotRef B σ (.pde none (pdx (vaOf (m * 1024)))) = none := by
      rw [slotRef, habs]
      rfl
    have htpp : t ≠ pp := fun hc => h.notMem (hc ▸ List.mem_cons_self)
    obtain ⟨hrefs, -⟩ := h.inv.refs_of_walk hd hva h.allocated List.mem_cons_self
      (by rwa [slots_pde hd htr] at habs) hslots
    have hbound (p : ℕ) : Jos.refs B σ' p ≤ 65535 := by
      simpa only [Pi.zero_apply, add_zero] using
        h.inv.page.refs_fill_le hempty hslots h.inv.bound_held p
    refine ⟨σ', free, ⟨hinv, hbound⟩, h.managed,
      fun hc => h.notMem (List.mem_cons_of_mem _ hc), ?_, ?_, ?_, ?_, ?_⟩
    · intro s hs
      rw [slotRef_update hslots]
      by_cases hsp : s = .pde none (pdx (vaOf (m * 1024)))
      · subst hsp
        rw [Function.update_self]
        exact fun hc => htpp (Option.some.inj hc)
      · rw [Function.update_of_ne hsp]
        exact h.noTable s hs
    · exact hrefs.trans h.refs
    · -- the new table has no entries
      intro i j hij
      rw [hslots, Function.update_of_ne (by simp)]
      exact h.empty i j hij
    · -- the tables are those of the first `m + 1` slots now
      intro i hi'
      rw [hslots]
      by_cases hieq : i = pdx (vaOf (m * 1024))
      · subst hieq
        rw [Function.update_self]
        simp only [reduceCtorEq, false_iff]
        omega
      · have hval : i.val ≠ m := fun hc => hieq (Fin.ext (hc.trans hpdx.symm))
        rw [Function.update_of_ne (by simpa using hieq), h.tables i hi']
        omega
    · rw [List.length_cons] at hroom
      omega

/-- The page table of the next page is there, and its entry is empty. -/
theorem Packed.next (h : Packed B k m pp σ free) (hk : k < m * 1024) (hm : m ≤ 64) :
    vaOf k < utop ∧
      (∃ t, entryOf (σ.mem (frameAt B.kernPgdir) (pdx (vaOf k))) = some t) ∧
      slots B σ (.pte none (pdx (vaOf k)) (ptx (vaOf k))) = none := by
  obtain ⟨hva, hpdx, hptx⟩ := vaOf_indices (show k < 65536 by omega)
  have hi := (lt_utop_iff _).mp hva
  have htab := h.tables _ hi
  refine ⟨hva, ?_, h.empty _ _ (by omega)⟩
  rw [slots_pde (show dirFrame B σ none = some (frameAt B.kernPgdir) from rfl)
    (tracked_of_lt hi none)] at htab
  exact Option.ne_none_iff_exists'.mp fun hc => absurd (htab.mp hc) (by omega)

/-- One more mapping. -/
theorem Packed.insert (h : Packed B k m pp σ free) (hk : k < m * 1024) (hm : m ≤ 64)
    (hlt : k < 65535) : ∃ σ', CountStep B σ (.pageInsert 0 none pp (vaOf k) pteU) σ' ∧
      InsertFits B B.kernPgdir pp (vaOf k) σ ∧ Packed B (k + 1) m pp σ' free ∧
      slots B σ' = Function.update (slots B σ) (.pte none (pdx (vaOf k)) (ptx (vaOf k)))
        (some (pp, pteU.setWidth 12 ||| 1#12)) := by
  obtain ⟨hva, ⟨t, ht⟩, hnone⟩ := h.next hk hm
  have hi := (lt_utop_iff _).mp hva
  have hd : dirFrame B σ none = some (frameAt B.kernPgdir) := rfl
  obtain ⟨σ', hrun, hslots, -, hinv⟩ := pageInsert_present h.inv.page hd hi ht
    h.managed h.notMem (show pteU.toNat < 4096 by decide) h.inv.bound_held 0
  have hinv' := hinv h.noTable
  simp only [freeAfterInsert, hnone] at hinv'
  -- the counter is below its capacity, so nothing wraps
  have hfits : InsertFits B B.kernPgdir pp (vaOf k) σ := by
    left
    rw [h.refs]
    exact hlt
  obtain ⟨r, σ₁, hrun₁, -, hbound⟩ :=
    h.inv.insert_counts hd hva (show pteU.toNat < 4096 by decide) h.allocated 0
  obtain ⟨-, rfl⟩ := ok_unique_pair hrun hrun₁
  have hempty : slotRef B σ (.pte none (pdx (vaOf k)) (ptx (vaOf k))) = none := by
    rw [slotRef, hnone]
    rfl
  have hstep : CountStep B σ (.pageInsert 0 none pp (vaOf k) pteU) σ' :=
    ⟨⟨Option.some_ne_none _, hva, by decide, h.allocated,
        not_exists.mpr fun s hs => h.noTable s hs.1 hs.2⟩,
      congrArg (Except.map Prod.snd) hrun⟩
  refine ⟨σ', hstep, hfits, ⟨⟨hinv', hbound hfits⟩, h.managed, h.notMem, ?_, ?_, ?_, ?_, h.room⟩,
    hslots⟩
  · intro s hs
    rw [slotRef_update hslots, Function.update_of_ne (by rintro rfl; exact hs)]
    exact h.noTable s hs
  · have hfill := refCount_update_some hempty pp pp
    rw [if_pos rfl] at hfill
    rw [Jos.refs, slotRef_update hslots]
    exact hfill.trans (congrArg (· + 1) h.refs)
  · intro i j hij
    obtain ⟨-, hpdx, hptx⟩ := vaOf_indices (show k < 65536 by omega)
    rw [hslots, Function.update_of_ne]
    · exact h.empty i j (by omega)
    · intro hc
      obtain ⟨-, rfl, rfl⟩ := Slot.pte.inj hc
      omega
  · intro i hi'
    rw [hslots, Function.update_of_ne (by simp)]
    exact h.tables i hi'

/-- 64 page tables, and then any number of mappings up to the capacity of the counter. -/
theorem Packed.full (h : Packed B 0 0 pp σ free) :
    ∃ σ' free', Packed B 65535 64 pp σ' free' := by
  have hwalks : ∀ m ≤ 64, ∃ σ free, Packed B 0 m pp σ free := by
    intro m hm
    induction m with
    | zero => exact ⟨σ, free, h⟩
    | succ m ih =>
      obtain ⟨σ, free, hm'⟩ := ih (by omega)
      exact hm'.walk (by omega)
  have hinserts : ∀ k ≤ 65535, ∃ σ free, Packed B k 64 pp σ free := by
    intro k hk
    induction k with
    | zero => exact hwalks 64 le_rfl
    | succ k ih =>
      obtain ⟨σ, free, hk'⟩ := ih (by omega)
      obtain ⟨σ', -, -, hk', -⟩ := hk'.insert (by omega) le_rfl (by omega)
      exact ⟨σ', free, hk'⟩
  exact hinserts 65535 (Nat.le_refl 65535)

end Packed

/-- A page of the small machine with no mapping, and enough free pages for 64 page tables. -/
theorem smallMachine_packed : ∃ σ free pp, Packed smallMachine 0 0 pp σ free := by
  obtain ⟨free, rest, hinv, hroom⟩ := smallMachine_pages
  obtain ⟨pp, free, rfl⟩ := List.exists_cons_of_length_pos (Nat.zero_lt_of_lt hroom)
  obtain ⟨σ, halloc, hinv', hslots, -⟩ := pageAlloc_spec hinv.page 0#32
  have hnone (s : Slot) : slots smallMachine σ s = none := by
    rw [hslots, bootState_slots smallMemory_booted]
  have hrefs (p : ℕ) : refs smallMachine σ p = 0 := by
    rw [refs_eq_of_slots hslots, bootState_refs smallMemory_booted]
  refine ⟨σ, free, pp, ⟨hinv', fun p => by rw [hrefs]; omega⟩,
    hinv.page.free_managed pp List.mem_cons_self,
    (List.nodup_cons.mp hinv.page.chain.nodup).1, ?_, hrefs pp, fun i j _ => hnone _, ?_, ?_⟩
  · intro s _
    rw [slotRef, hnone s]
    simp
  · intro i _
    rw [hnone]
    simp
  · rw [List.length_cons] at hroom
    omega

/-- From every state in which the counters are the numbers of references, `page_insert` keeps
the counter of its page right if and only if there is room for one more reference; and in every
run of insertions that have this room and of removals, into and from any directories, no page
that is still mapped is on the free list. -/
theorem refCount_exact_iff (h : GlobalInv B σ free) :
    (∀ (a : Space) (pgdir va : Word) (pp : ℕ) (perm : Word) (cpu : ℕ),
      dirFrame B σ a = some (frameAt pgdir) → va < utop → perm.toNat < 4096 → Allocated B σ pp →
      ∃ r σ', pageInsert B cpu pgdir pp va perm σ = .ok (r, σ') ∧
        (InsertCounts B pp σ r σ' ↔ InsertFits B pgdir pp va σ)) ∧
    ∀ ops σ', Run (CountStep B) σ ops σ' → Run.Meets (CountStep B) σ ops (CanCount B) →
      ∀ s p, slotRef B σ' s = some p → ¬OnFreeList σ' p ∧ (σ'.ref p).toNat = refs B σ' p := by
  constructor
  · intro a pgdir va pp perm cpu hd hva hperm hpp
    obtain ⟨r, σ', hrun, hiff, -⟩ := h.insert_counts hd hva hperm hpp cpu
    exact ⟨r, σ', hrun, hiff⟩
  · intro ops σ' hrun hc s p hs
    obtain ⟨free', h'⟩ := h.map_run hrun hc
    refine ⟨?_, h'.ref_eq (h'.page.slot_managed s p hs)⟩
    rw [h'.page.onFreeList_iff]
    exact h'.page.notMem_of_slot hs

/-- Page `pp` is mapped twice and unmapped once. -/
def mapTwice (pp : ℕ) : List MapOp :=
  [.pageInsert 0 none pp (vaOf 0) pteU, .pageInsert 0 none pp (vaOf 1) pteU,
    .pageRemove 0 none (vaOf 0)]

theorem refCount_exact_smallMachine : ∃ σ free pp σ', GlobalInv smallMachine σ free ∧
    Run (CountStep smallMachine) σ (mapTwice pp) σ' ∧
    Run.Meets (CountStep smallMachine) σ (mapTwice pp) (CanCount smallMachine) ∧
    refs smallMachine σ' pp = 1 ∧ ¬OnFreeList σ' pp ∧ σ'.ref pp = 1#16 := by
  obtain ⟨σ₀, free₀, pp, h₀⟩ := smallMachine_packed
  obtain ⟨σ, free, h⟩ := h₀.walk (by decide)
  obtain ⟨σ₁, hstep₁, hfits₁, h₁, hslots₁⟩ := h.insert (by decide) (by decide) (by decide)
  obtain ⟨σ₂, hstep₂, hfits₂, h₂, hslots₂⟩ := h₁.insert (by decide) (by decide) (by decide)
  have hdir : dirFrame smallMachine σ₂ none = some (frameAt smallMachine.kernPgdir) := rfl
  obtain ⟨σ', free', hremove, -, hslots⟩ :=
    h₂.inv.remove_inv hdir (show vaOf 0 < utop by decide) 0
  have hne : Slot.pte none (pdx (vaOf 0)) (ptx (vaOf 0)) ≠
      .pte none (pdx (vaOf 1)) (ptx (vaOf 1)) := by decide
  have hstep₃ : CountStep smallMachine σ₂ (.pageRemove 0 none (vaOf 0)) σ' :=
    ⟨⟨Option.some_ne_none _, by decide⟩, hremove⟩
  have hrun : Run (CountStep smallMachine) σ (mapTwice pp) σ' :=
    .cons hstep₁ (.cons hstep₂ (.cons hstep₃ .nil))
  have hmeets : Run.Meets (CountStep smallMachine) σ (mapTwice pp) (CanCount smallMachine) := by
    refine .cons (fun _ _ _ _ _ heq => by cases heq; exact hfits₁) fun τ₁ hτ₁ => ?_
    obtain rfl := ok_unique hτ₁.exec hstep₁.exec
    refine .cons (fun _ _ _ _ _ heq => by cases heq; exact hfits₂) fun τ₂ hτ₂ => ?_
    exact .cons (fun _ _ _ _ _ heq => by cases heq) fun _ _ => .nil
  -- the first mapping is gone, and the second one is there
  have hold : slotRef smallMachine σ₂ (.pte none (pdx (vaOf 0)) (ptx (vaOf 0))) = some pp := by
    rw [slotRef, hslots₂, Function.update_of_ne hne, hslots₁, Function.update_self]
    rfl
  have hleft : slotRef smallMachine σ' (.pte none (pdx (vaOf 1)) (ptx (vaOf 1))) = some pp := by
    rw [slotRef, hslots, Function.update_of_ne hne.symm, hslots₂, Function.update_self]
    rfl
  have hrefs : refs smallMachine σ' pp = 1 := by
    have hup := refCount_update_none hold pp
    rw [if_pos rfl, show refCount (slotRef smallMachine σ₂) pp = 2 from h₂.refs] at hup
    rw [refs, slotRef_update hslots]
    exact Nat.succ.inj hup
  obtain ⟨hoff, hcount⟩ := (refCount_exact_iff h.inv).2 _ _ hrun hmeets _ _ hleft
  exact ⟨σ, free, pp, σ', h.inv, hrun, hmeets, hrefs, hoff,
    BitVec.eq_of_toNat_eq (hcount.trans hrefs)⟩

/-- A page with 65535 mappings gets one more, and its counter is 0. -/
theorem refCount_wraps : ∃ σ free pp va σ', GlobalInv smallMachine σ free ∧
    Allocated smallMachine σ pp ∧ va < utop ∧
    pageInsert smallMachine 0 smallMachine.kernPgdir pp va pteU σ = .ok (0, σ') ∧
    refs smallMachine σ' pp = 65536 ∧ σ'.ref pp = 0#16 := by
  obtain ⟨σ₀, free₀, pp, h₀⟩ := smallMachine_packed
  obtain ⟨σ, free, h⟩ := h₀.full
  obtain ⟨hva, ⟨t, ht⟩, hnone⟩ := h.next (by decide) le_rfl
  obtain ⟨hfail, -⟩ | ⟨kva, σ₁, free₁, σ₂, hrun, hins, hcase⟩ :=
    h.inv.pageInsert_cases (a := none) rfl hva h.allocated 0 pteU
  · exact absurd (ht.symm.trans hfail) (by simp)
  · obtain ⟨rfl, -, -⟩ | ⟨-, -, habs, -⟩ := hcase
    · have hrefs := hins.refs_store hva (show pteU.toNat < 4096 by decide) pp
      rw [slotRef, hnone, Option.map_none, if_neg (by simp), add_zero, if_pos rfl, h.refs] at hrefs
      refine ⟨σ₁, free, pp, vaOf 65535, _, h.inv, h.allocated, hva, hrun, hrefs, ?_⟩
      rw [hins.ref_eq hva (by decide), hrefs]
      rfl
    · exact absurd (ht.symm.trans habs) (by simp)

end Jos
