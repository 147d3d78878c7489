import Jos.Memory.MemRun

/-!
# Address spaces as partial maps

What a page directory is for: `dirMap σ d` is the partial map from virtual page
numbers below `UTOP` to a physical page and twelve permission bits, read off
memory by the two-level walk from the directory in frame `d`. It is the abstract
model of an address space, and the page table operations refine the obvious
operations on it (`pageTable_refines`):

* `page_insert` writes one key, `page_remove` deletes one key, `page_lookup` reads
  one key, and `pgdir_walk` changes nothing;
* none of them changes the map of another page directory.

The link to the page invariant is `dirMap_eq_slots`: the keys of the map are the
`pte` slots of the space. A write of one `pte` slot is then a write of one key of
one map (`changes_of_pte`), and a write of a `pde` slot whose table is empty is no
write at all (`changes_of_pde`).
-/

namespace Jos

variable {B : Boot} {σ σ' : State} {a : Space} {d : ℕ} {free : List ℕ}

/-- The directory index of a virtual page number. -/
def vpnPdx (vpn : ℕ) : Fin 1024 := Fin.ofNat 1024 (vpn / 1024)

/-- The table index of a virtual page number. -/
def vpnPtx (vpn : ℕ) : Fin 1024 := Fin.ofNat 1024 vpn

/-- The user part of the address space with its page directory in frame `d`. -/
def dirMap (σ : State) (d vpn : ℕ) : Option (ℕ × BitVec 12) :=
  if vpn < pgnum utop then
    (entryOf (σ.mem d (vpnPdx vpn))).bind fun t => entryOf (σ.mem t.1 (vpnPtx vpn))
  else none

/-- From `σ` to `σ'` the map of the directory `d` has become `m`, and no other
directory has changed its map. -/
structure Changes (B : Boot) (σ σ' : State) (d : ℕ) (m : ℕ → Option (ℕ × BitVec 12)) :
    Prop where
  here : dirMap σ' d = m
  elsewhere : ∀ a' d', dirFrame B σ a' = some d' → d' ≠ d → dirMap σ' d' = dirMap σ d'
  dirs : ∀ a', dirFrame B σ' a' = dirFrame B σ a'

/-! ### Keys and slots -/

theorem pgnum_utop : pgnum utop = 977920 := by decide

theorem vpnPdx_val {vpn : ℕ} (h : vpn < 977920) : (vpnPdx vpn).val = vpn / 1024 := by
  rw [vpnPdx, Fin.val_ofNat]
  omega

theorem vpnPtx_val (vpn : ℕ) : (vpnPtx vpn).val = vpn % 1024 := by
  rw [vpnPtx, Fin.val_ofNat]

theorem vpn_eq_iff {vpn : ℕ} (h : vpn < 977920) (va : Word) :
    (vpnPdx vpn = pdx va ∧ vpnPtx vpn = ptx va) ↔ vpn = pgnum va := by
  rw [Fin.ext_iff, Fin.ext_iff, vpnPdx_val h, vpnPtx_val, pgnum_split]
  have hlt := (ptx va).isLt
  omega

theorem pgnum_lt {va : Word} (h : va < utop) : pgnum va < 977920 := by
  have hi := (lt_utop_iff va).mp h
  have hlt := (ptx va).isLt
  rw [pgnum_split]
  omega

/-- The map of a space is its `pte` slots. -/
theorem dirMap_eq_slots (hd : dirFrame B σ a = some d) {vpn : ℕ} (h : vpn < 977920) :
    dirMap σ d vpn = slots B σ (.pte a (vpnPdx vpn) (vpnPtx vpn)) := by
  have hi : (vpnPdx vpn).val < 955 := by
    rw [vpnPdx_val h]
    omega
  rw [dirMap, if_pos (by rw [pgnum_utop]; exact h)]
  simp only [slots, if_pos hi, hd, Option.bind_some]

theorem dirMap_of_ge {vpn : ℕ} (h : ¬vpn < 977920) : dirMap σ d vpn = none := by
  rw [dirMap, if_neg (by rw [pgnum_utop]; exact h)]

theorem dirMap_pgnum (hd : dirFrame B σ a = some d) {va : Word} (hva : va < utop) :
    dirMap σ d (pgnum va) = slots B σ (.pte a (pdx va) (ptx va)) := by
  obtain ⟨hp, ht⟩ := (vpn_eq_iff (pgnum_lt hva) va).mpr rfl
  rw [dirMap_eq_slots hd (pgnum_lt hva), hp, ht]

/-- Equal `pte` slots are equal maps. -/
theorem dirMap_congr (hd : dirFrame B σ a = some d) (hd' : dirFrame B σ' a = some d)
    (h : ∀ i j, slots B σ' (.pte a i j) = slots B σ (.pte a i j)) : dirMap σ' d = dirMap σ d := by
  ext vpn
  by_cases hv : vpn < 977920
  · rw [dirMap_eq_slots hd hv, dirMap_eq_slots hd' hv, h]
  · rw [dirMap_of_ge hv, dirMap_of_ge hv]

/-- Writing one `pte` slot is writing one key of one map. -/
theorem changes_of_pte (hd : dirFrame B σ a = some d) {va : Word}
    (hva : va < utop) (hdirs : ∀ a', dirFrame B σ' a' = dirFrame B σ a')
    {v : Option (ℕ × BitVec 12)}
    (hpte : ∀ a' i j, slots B σ' (.pte a' i j) =
      Function.update (slots B σ) (.pte a (pdx va) (ptx va)) v (.pte a' i j)) :
    Changes B σ σ' d (Function.update (dirMap σ d) (pgnum va) v) where
  here := by
    have hd' : dirFrame B σ' a = some d := by rw [hdirs, hd]
    ext vpn
    by_cases hv : vpn < 977920
    · rw [dirMap_eq_slots hd' hv, hpte]
      by_cases hkey : vpn = pgnum va
      · obtain ⟨hp, ht⟩ := (vpn_eq_iff hv va).mpr hkey
        rw [hp, ht, hkey, Function.update_self, Function.update_self]
      · rw [Function.update_of_ne hkey, Function.update_of_ne, dirMap_eq_slots hd hv]
        rintro hc
        rw [Slot.pte.injEq] at hc
        exact hkey ((vpn_eq_iff hv va).mp hc.2)
    · -- there are no keys at and above `UTOP`
      have hkey : vpn ≠ pgnum va := fun hc => hv (hc ▸ pgnum_lt hva)
      rw [Function.update_of_ne hkey, dirMap_of_ge hv, dirMap_of_ge hv]
  elsewhere a' d' hd' hne := by
    apply dirMap_congr hd' (by rw [hdirs, hd'])
    intro i j
    -- the written slot belongs to another space
    rw [hpte, Function.update_of_ne]
    rintro hc
    rw [Slot.pte.injEq] at hc
    obtain rfl := hc.1
    exact hne (Option.some.inj (hd'.symm.trans hd))
  dirs := hdirs

/-- Writing no `pte` slot changes no map. -/
theorem changes_of_pde (hd : dirFrame B σ a = some d)
    (hdirs : ∀ a', dirFrame B σ' a' = dirFrame B σ a')
    (hpte : ∀ a' i j, slots B σ' (.pte a' i j) = slots B σ (.pte a' i j)) :
    Changes B σ σ' d (dirMap σ d) where
  here := dirMap_congr hd (by rw [hdirs, hd]) (hpte a)
  elsewhere a' _ hd' _ := dirMap_congr hd' (by rw [hdirs, hd']) (hpte a')
  dirs := hdirs

/-! ### The operations -/

/-- The page table operations at `va` on the directory at `pgdir` are the operations
on its map. -/
structure PageTableRefines (B : Boot) (σ : State) (cpu : ℕ) (pgdir va : Word) : Prop where
  /-- Without a page table and with no page left for one `page_insert` fails and changes
  nothing. Otherwise it sets the key; a page that is already there keeps its count. -/
  insert : ∀ pp perm, Allocated B σ pp → perm.toNat < 4096 →
    (entryOf (σ.mem (frameAt pgdir) (pdx va)) = none ∧ σ.pageFreeList = none ∧
      pageInsert B cpu pgdir pp va perm σ = .ok (-eNoMem, σ)) ∨
    ∃ σ', pageInsert B cpu pgdir pp va perm σ = .ok (0, σ') ∧
      Changes B σ σ' (frameAt pgdir) (Function.update (dirMap σ (frameAt pgdir)) (pgnum va)
        (some (pp, perm.setWidth 12 ||| 1#12))) ∧
      ((dirMap σ (frameAt pgdir) (pgnum va)).map Prod.fst = some pp → σ'.ref pp = σ.ref pp)
  remove : ∃ σ', pageRemove B cpu pgdir va σ = .ok σ' ∧
    Changes B σ σ' (frameAt pgdir) (Function.update (dirMap σ (frameAt pgdir)) (pgnum va) none)
  /-- `page_lookup` finds nothing, or the page and the entry that maps it. -/
  lookup : (dirMap σ (frameAt pgdir) (pgnum va) = none ∧
      pageLookup B pgdir va σ = .ok (none, σ)) ∨
    ∃ p π pte, dirMap σ (frameAt pgdir) (pgnum va) = some (p, π) ∧
      pageLookup B pgdir va σ = .ok (some (p, pte), σ) ∧ entryOf (σ.load pte) = some (p, π)
  walk : ∃ r σ', pgdirWalk B pgdir va true σ = .ok (r, σ') ∧
    Changes B σ σ' (frameAt pgdir) (dirMap σ (frameAt pgdir))

section Operations

variable {pgdir va : Word}

theorem GlobalInv.notMem_free (h : GlobalInv B σ free) {pp : ℕ} (hpp : Allocated B σ pp) :
    pp ∉ free :=
  fun hc => hpp.2 ((h.page.onFreeList_iff pp).mpr hc)

/-- Inserting a page where it is mapped already leaves its count alone. -/
theorem GlobalInv.ref_of_reinsert {free' : List ℕ} {s : Slot} {pp : ℕ} {π π' : BitVec 12}
    (h : GlobalInv B σ free) (h' : PageInv B σ' 0 free') (hm : B.Managed pp)
    (hold : slots B σ s = some (pp, π))
    (hnew : slots B σ' = Function.update (slots B σ) s (some (pp, π'))) :
    σ'.ref pp = σ.ref pp := by
  -- the slot refers to the same page as before, whatever its permissions
  have hrefs : slotRef B σ' = slotRef B σ := by
    rw [slotRef_update hnew]
    apply (Function.update_eq_self_iff).mpr
    rw [slotRef, hold]
    rfl
  rw [h'.count pp hm, h.page.count pp hm, hrefs]

theorem pageInsert_refines (h : GlobalInv B σ free) (hd : dirFrame B σ a = some (frameAt pgdir))
    (hva : va < utop) (cpu : ℕ) {pp : ℕ} {perm : Word} (hpp : Allocated B σ pp)
    (hperm : perm.toNat < 4096) :
    (entryOf (σ.mem (frameAt pgdir) (pdx va)) = none ∧ σ.pageFreeList = none ∧
      pageInsert B cpu pgdir pp va perm σ = .ok (-eNoMem, σ)) ∨
    ∃ σ', pageInsert B cpu pgdir pp va perm σ = .ok (0, σ') ∧
      Changes B σ σ' (frameAt pgdir) (Function.update (dirMap σ (frameAt pgdir)) (pgnum va)
        (some (pp, perm.setWidth 12 ||| 1#12))) ∧
      ((dirMap σ (frameAt pgdir) (pgnum va)).map Prod.fst = some pp → σ'.ref pp = σ.ref pp) := by
  have hi := (lt_utop_iff va).mp hva
  have hfree := h.notMem_free hpp
  cases ht : entryOf (σ.mem (frameAt pgdir) (pdx va)) with
  | some t =>
    right
    obtain ⟨σ', hrun, hslots, hkeeps, hinv⟩ :=
      pageInsert_present h.page hd hi ht hpp.1 hfree hperm h.bound_held cpu
    refine ⟨σ', hrun, changes_of_pte hd hva hkeeps.dirFrame fun _ _ _ => by
      rw [hslots], ?_⟩
    intro hmap
    rw [dirMap_pgnum hd hva, Option.map_eq_some_iff] at hmap
    obtain ⟨⟨p, π⟩, hold, rfl⟩ := hmap
    -- a page that a page table entry refers to is no table itself
    have hnt : ∀ s : Slot, s.IsTable → slotRef B σ s ≠ some p := by
      intro s hs hc
      have hslot : slotRef B σ (.pte a (pdx va) (ptx va)) = some p := by
        rw [slotRef, hold]
        rfl
      obtain rfl := h.page.unique s _ p hs hc hslot
      exact hs
    exact h.ref_of_reinsert (hinv hnt) hpp.1 hold hslots
  | none =>
    cases free with
    | nil => exact .inl ⟨rfl, h.page.chain.head_none_iff.mpr rfl,
        pageInsert_full h.page ht cpu pp perm⟩
    | cons t free =>
      right
      obtain ⟨σ', hrun, hslots, hkeeps, -⟩ :=
        pageInsert_alloc h.page hd hi ht hpp.1 hfree hperm h.bound_held cpu
      refine ⟨σ', hrun, changes_of_pte hd hva hkeeps.dirFrame ?_,
        ?_⟩
      · -- the new page table is empty, so only the mapped key shows
        intro a' i j
        rw [hslots]
        by_cases hs : Slot.pte a' i j = .pte a (pdx va) (ptx va)
        · rw [hs, Function.update_self, Function.update_self]
        · rw [Function.update_of_ne hs, Function.update_of_ne hs, Function.update_of_ne (by simp)]
      · -- without a page table nothing was mapped at `va`
        intro hmap
        rw [dirMap_pgnum hd hva, slots_pte_of_none hd ht] at hmap
        cases hmap

theorem pageRemove_refines (h : GlobalInv B σ free) (hd : dirFrame B σ a = some (frameAt pgdir))
    (hva : va < utop) (cpu : ℕ) :
    ∃ σ', pageRemove B cpu pgdir va σ = .ok σ' ∧ Changes B σ σ' (frameAt pgdir)
      (Function.update (dirMap σ (frameAt pgdir)) (pgnum va) none) := by
  obtain ⟨σ', hrun, hslots, -, hkeeps⟩ := pageRemove_spec h.page hd ((lt_utop_iff va).mp hva)
    (fun p => (h.bound_held p).trans (by omega)) cpu
  exact ⟨σ', hrun, changes_of_pte hd hva hkeeps.dirFrame fun _ _ _ => by
    rw [hslots]⟩

theorem pageLookup_refines (h : GlobalInv B σ free) (hd : dirFrame B σ a = some (frameAt pgdir))
    (hva : va < utop) :
    (dirMap σ (frameAt pgdir) (pgnum va) = none ∧ pageLookup B pgdir va σ = .ok (none, σ)) ∨
    ∃ p π pte, dirMap σ (frameAt pgdir) (pgnum va) = some (p, π) ∧
      pageLookup B pgdir va σ = .ok (some (p, pte), σ) ∧ entryOf (σ.load pte) = some (p, π) := by
  obtain ⟨hnone, hsome⟩ := pageLookup_spec h.page hd ((lt_utop_iff va).mp hva)
  rw [dirMap_pgnum hd hva]
  cases hs : slots B σ (.pte a (pdx va) (ptx va)) with
  | none => exact Or.inl ⟨rfl, hnone hs⟩
  | some u =>
    obtain ⟨p, π⟩ := u
    obtain ⟨kva, t, ρ, hrun, hkva, -, hpte⟩ := hsome p π hs
    refine Or.inr ⟨p, π, (kva, ptx va), rfl, hrun, ?_⟩
    rw [State.load, hkva, hpte]

theorem pgdirWalk_refines (h : GlobalInv B σ free) (hd : dirFrame B σ a = some (frameAt pgdir))
    (hva : va < utop) :
    ∃ r σ', pgdirWalk B pgdir va true σ = .ok (r, σ') ∧
      Changes B σ σ' (frameAt pgdir) (dirMap σ (frameAt pgdir)) := by
  have hi := (lt_utop_iff va).mp hva
  have htr := tracked_of_lt hi a
  cases ht : entryOf (σ.mem (frameAt pgdir) (pdx va)) with
  | some t =>
    obtain ⟨kva, hrun, -⟩ := pgdirWalk_present h.page hd htr ht true
    exact ⟨_, σ, hrun, changes_of_pde hd (fun _ => rfl) fun _ _ _ => rfl⟩
  | none =>
    cases free with
    | nil =>
      exact ⟨none, σ, pgdirWalk_full h.page ht, changes_of_pde hd (fun _ => rfl) fun _ _ _ => rfl⟩
    | cons t free =>
      -- the new table is a slot of the directory, not a key of its map
      obtain ⟨σ', kva, hrun, -, -, hslots, henvs, -⟩ := pgdirWalk_alloc h.page hd htr ht
      refine ⟨_, σ', hrun, changes_of_pde hd (dirFrame_congr henvs) ?_⟩
      intro a' i j
      rw [hslots, Function.update_of_ne (by simp)]

/-- In every state that satisfies the page invariant the page table operations
refine operations on partial maps, and address spaces are isolated. -/
theorem pageTable_refines (h : GlobalInv B σ free) (hd : dirFrame B σ a = some (frameAt pgdir))
    (hva : va < utop) (cpu : ℕ) : PageTableRefines B σ cpu pgdir va where
  insert _ _ hpp hperm := pageInsert_refines h hd hva cpu hpp hperm
  remove := pageRemove_refines h hd hva cpu
  lookup := pageLookup_refines h hd hva
  walk := pgdirWalk_refines h hd hva

/-- A page of the small machine, handed out and not yet mapped. -/
theorem smallMachine_allocated : ∃ σ free pp, GlobalInv smallMachine σ free ∧
    Allocated smallMachine σ pp := by
  obtain ⟨p, free, rest, hinv⟩ := smallMachine_inv
  obtain ⟨σ, -, hpage, hslots, -⟩ := pageAlloc_spec hinv.page 0#32
  have hfree : p ∉ free := (List.nodup_cons.mp hinv.page.chain.nodup).1
  refine ⟨σ, free, p, ⟨hpage, ?_⟩, hinv.page.free_managed p List.mem_cons_self,
    fun hc => hfree ((hpage.onFreeList_iff p).mp hc)⟩
  intro q
  rw [refs_eq_of_slots hslots]
  exact hinv.bound q

theorem pageTable_refines_smallMachine : ∃ σ free pp, GlobalInv smallMachine σ free ∧
    Allocated smallMachine σ pp ∧
      PageTableRefines smallMachine σ 0 smallMachine.kernPgdir 0#32 := by
  obtain ⟨σ, free, pp, hglobal, hpp⟩ := smallMachine_allocated
  exact ⟨σ, free, pp, hglobal, hpp, pageTable_refines (a := none) hglobal rfl (by decide) 0⟩

end Operations

end Jos
