import Jos.Kern.Env
import Jos.Memory.PageOps

/-!
# Tearing an address space down

`env_free` empties the user part of an address space entry by entry, and frees
each page table after its entries. `Clears C` describes such a partial teardown:
exactly the slots in `C` have been emptied, and exactly the pages whose last
reference was among them have moved to the free list. It composes
(`Clears.trans`), so the two nested loops are two inductions over the entries
still to be visited (`unmapPtes_spec`, `unmapPdes_spec`).

The table that the inner loop reads is itself a counted page, but its own slot is
emptied only after the loop, so it stays a table of this space while it is read.
-/

namespace Jos

variable {B : Boot} {held : ℕ → ℕ}

/-- From `σ` to `σ'` exactly the slots in `C` were emptied, and the pages that lost
their last reference were freed. -/
structure Clears (B : Boot) (held : ℕ → ℕ) (C : Set Slot) (σ : State) (free : List ℕ)
    (σ' : State) (free' : List ℕ) : Prop where
  inv : PageInv B σ' held free'
  cleared : ∀ s ∈ C, slots B σ' s = none
  kept : ∀ s ∉ C, slots B σ' s = slots B σ s
  freed : ∀ p, p ∈ free' ↔ p ∈ free ∨ refs B σ' p + held p = 0 ∧ 0 < refs B σ p + held p

/-- Emptying slots takes references away. -/
theorem refs_le_of_slots {σ σ' : State}
    (h : ∀ s, slots B σ' s = none ∨ slots B σ' s = slots B σ s) (p : ℕ) :
    refs B σ' p ≤ refs B σ p := by
  refine refCount_mono ?_ p
  intro s
  rcases h s with hn | he
  · left
    rw [slotRef, hn]
    rfl
  · right
    rw [slotRef, slotRef, he]

namespace Clears

variable {C C' : Set Slot} {σ σ' σ'' : State} {free free' free'' : List ℕ}

theorem refs_le (h : Clears B held C σ free σ' free') (p : ℕ) : refs B σ' p ≤ refs B σ p := by
  refine refs_le_of_slots ?_ p
  intro s
  by_cases hs : s ∈ C
  · exact Or.inl (h.cleared s hs)
  · exact Or.inr (h.kept s hs)

theorem bound (h : Clears B held C σ free σ' free') {n : ℕ}
    (hb : ∀ p, refs B σ p + held p ≤ n) (p : ℕ) : refs B σ' p + held p ≤ n :=
  (Nat.add_le_add_right (h.refs_le p) _).trans (hb p)

/-- A step that writes no slot, when the slots of `C` were empty. -/
theorem same (h : PageInv B σ' held free) (hslots : slots B σ' = slots B σ)
    (hC : ∀ s ∈ C, slots B σ s = none) : Clears B held C σ free σ' free where
  inv := h
  cleared s hs := by
    rw [hslots]
    exact hC s hs
  kept s _ := by rw [hslots]
  freed p := by
    rw [refs_eq_of_slots hslots]
    exact (or_iff_left fun hnow => by omega).symm

theorem refl (h : PageInv B σ held free) (hC : ∀ s ∈ C, slots B σ s = none) :
    Clears B held C σ free σ free :=
  same h rfl hC

theorem trans (h : Clears B held C σ free σ' free') (h' : Clears B held C' σ' free' σ'' free'') :
    Clears B held (C ∪ C') σ free σ'' free'' where
  inv := h'.inv
  cleared s hs := by
    by_cases hs' : s ∈ C'
    · exact h'.cleared s hs'
    · rw [h'.kept s hs']
      exact h.cleared s (hs.resolve_right hs')
  kept s hs := by
    rw [Set.mem_union, not_or] at hs
    rw [h'.kept s hs.2, h.kept s hs.1]
  freed p := by
    have hle := h.refs_le p
    have hle' := h'.refs_le p
    rw [h'.freed p, h.freed p]
    -- a page loses its last reference in one of the two parts
    constructor
    · rintro ((hp | ⟨h0, hpos⟩) | ⟨h0, hpos⟩)
      · exact Or.inl hp
      · exact Or.inr ⟨by omega, hpos⟩
      · exact Or.inr ⟨h0, by omega⟩
    · rintro (hp | ⟨h0, hpos⟩)
      · exact Or.inl (Or.inl hp)
      · by_cases hmid : refs B σ' p + held p = 0
        · exact Or.inl (Or.inr ⟨hmid, hpos⟩)
        · exact Or.inr ⟨h0, by omega⟩

theorem congr (h : Clears B held C σ free σ' free') (hC : C' = C) :
    Clears B held C' σ free σ' free' :=
  hC ▸ h

/-- Slots that were empty may be counted among the emptied ones. -/
theorem extend (h : Clears B held C σ free σ' free') (hsub : C ⊆ C')
    (hempty : ∀ s ∈ C', s ∉ C → slots B σ s = none) : Clears B held C' σ free σ' free' where
  inv := h.inv
  cleared s hs := by
    by_cases hc : s ∈ C
    · exact h.cleared s hc
    · rw [h.kept s hc]
      exact hempty s hs hc
  kept s hs := h.kept s fun hc => hs (hsub hc)
  freed := h.freed

/-- Emptying one slot, when the free list got its page exactly if that was the last
reference. -/
theorem single {s : Slot} (hinv : PageInv B σ' held free')
    (hslots : slots B σ' = Function.update (slots B σ) s none)
    (hfree : free' = freeAfterClear B σ held s free) :
    Clears B held {s} σ free σ' free' where
  inv := hinv
  cleared s' hs' := by
    rw [Set.mem_singleton_iff.mp hs', hslots, Function.update_self]
  kept s' hs' := by
    rw [hslots, Function.update_of_ne hs']
  freed p := by
    have hcount := refCount_update (slotRef B σ) s none p
    have hrefs : refs B σ' p = refCount (Function.update (slotRef B σ) s none) p := by
      rw [refs, slotRef_update hslots]
      rfl
    rw [hfree, freeAfterClear]
    cases hs : slots B σ s with
    | none =>
      have hsn : slotRef B σ s = none := by rw [slotRef, hs]; rfl
      have heq : refs B σ' p = refs B σ p := by
        rw [hrefs, refs, ← hsn, Function.update_eq_self]
      simp only [heq]
      exact (or_iff_left fun hnow => by omega).symm
    | some u =>
      obtain ⟨q, π⟩ := u
      have hsq : slotRef B σ s = some q := by rw [slotRef, hs]; rfl
      have heq : refs B σ' p + (if q = p then 1 else 0) = refs B σ p := by
        rw [hrefs]
        exact refCount_update_none hsq p
      simp only
      by_cases hqp : q = p
      · -- the emptied slot referred to `p`: was it the last reference?
        subst hqp
        rw [if_pos rfl] at heq
        split
        · next h1 =>
          exact iff_of_true List.mem_cons_self (Or.inr ⟨by omega, by omega⟩)
        · next h1 => exact (or_iff_left fun hnow => by omega).symm
      · -- another page: it keeps its references, and is not the one that was freed
        rw [if_neg hqp] at heq
        have hmem : p ∈ (if refs B σ q + held q = 1 then q :: free else free) ↔ p ∈ free := by
          split
          · rw [List.mem_cons]
            exact or_iff_right (fun hc => hqp hc.symm)
          · rfl
        rw [hmem]
        exact (or_iff_left fun hnow => by omega).symm

end Clears

/-! ### The inner loop -/

section Loops

variable (cpu : ℕ) {a : Space} {pgdir pt : Word} {i : Fin 1024}

/-- The slots of the entries `js` of one page table. -/
def pteSlots (a : Space) (i : Fin 1024) (js : List (Fin 1024)) : Set Slot :=
  {s | ∃ j ∈ js, s = .pte a i j}

/-- One entry of a page table. -/
theorem unmapPte_spec {σ : State} {free : List ℕ} (h : PageInv B σ held free)
    (hd : dirFrame B σ a = some (frameAt pgdir)) (hi : i.val < 955) {ρ : BitVec 12}
    (ht : entryOf (σ.mem (frameAt pgdir) i) = some (frameAt pt, ρ))
    (hbound : ∀ p, refs B σ p + held p ≤ 65535) (j : Fin 1024) :
    ∃ σ' free', unmapPte B cpu pgdir pt i σ j = .ok σ' ∧
      Clears B held {.pte a i j} σ free σ' free' ∧ Keeps B σ σ' := by
  have hslot : slots B σ (.pte a i j) = entryOf (σ.load (pt, j)) := slots_pte hd hi ht
  by_cases hpres : present (σ.load (pt, j)) = true
  · obtain ⟨σ', hrem, hslots, hinv, hkeeps⟩ := pageRemove_spec h hd
      (show (pdx (pgaddr i j 0#32)).val < 955 by rw [pdx_pgaddr]; exact hi)
      (fun p => (hbound p).trans (by omega)) cpu
    rw [pdx_pgaddr, ptx_pgaddr] at hslots hinv
    exact ⟨σ', _, by rw [unmapPte, if_pos hpres, hrem], Clears.single hinv hslots rfl, hkeeps⟩
  · refine ⟨σ, free, by rw [unmapPte, if_neg hpres], Clears.refl h ?_,
      Keeps.refl B σ⟩
    intro s hs
    rw [Set.mem_singleton_iff.mp hs, hslot, entryOf_eq_none]
    simpa using hpres

/-- The inner loop, by induction on the entries `js` it still has to visit. -/
theorem unmapPtes_spec (js : List (Fin 1024)) {σ : State} {free : List ℕ}
    (h : PageInv B σ held free) (hd : dirFrame B σ a = some (frameAt pgdir)) (hi : i.val < 955)
    {ρ : BitVec 12} (ht : entryOf (σ.mem (frameAt pgdir) i) = some (frameAt pt, ρ))
    (hbound : ∀ p, refs B σ p + held p ≤ 65535) :
    ∃ σ' free', js.foldlM (unmapPte B cpu pgdir pt i) σ = .ok σ' ∧
      Clears B held (pteSlots a i js) σ free σ' free' ∧ Keeps B σ σ' := by
  induction js generalizing σ free with
  | nil =>
    refine ⟨σ, free, rfl, Clears.refl h ?_, Keeps.refl B σ⟩
    rintro s ⟨j, hj, -⟩
    cases hj
  | cons j js ih =>
    obtain ⟨σ₁, free₁, hstep, hcl₁, hkeeps₁⟩ :=
      unmapPte_spec cpu h hd hi ht hbound j
    -- the table is still this space's: its own slot was not emptied
    have hd₁ : dirFrame B σ₁ a = some (frameAt pgdir) := by rw [hkeeps₁.dirFrame, hd]
    have htr := tracked_of_lt hi a
    have ht₁ : entryOf (σ₁.mem (frameAt pgdir) i) = some (frameAt pt, ρ) := by
      rw [← slots_pde hd₁ htr, hcl₁.kept _ (by simp), slots_pde hd htr, ht]
    obtain ⟨σ₂, free₂, hrest, hcl₂, hkeeps₂⟩ := ih hcl₁.inv hd₁ ht₁ (hcl₁.bound hbound)
    refine ⟨σ₂, free₂, ?_, (hcl₁.trans hcl₂).congr ?_, hkeeps₁.trans hkeeps₂⟩
    · rw [List.foldlM_cons, hstep, ok_bind, hrest]
    · ext s
      simp [pteSlots]

/-! ### The outer loop -/

/-- The slots of the directory entries `is` and of their tables. -/
def pdeSlots (a : Space) (is : List (Fin 1024)) : Set Slot :=
  {s | ∃ i ∈ is, s = .pde a i ∨ ∃ j, s = .pte a i j}

/-- The page table of one directory entry. -/
theorem unmapPde_spec {σ : State} {free : List ℕ} (h : PageInv B σ held free)
    (hd : dirFrame B σ a = some (frameAt pgdir)) (hi : i.val < 955)
    (hbound : ∀ p, refs B σ p + held p ≤ 65535) :
    ∃ σ' free', unmapPde B cpu pgdir σ i = .ok σ' ∧
      Clears B held (pdeSlots a [i]) σ free σ' free' ∧ Keeps B σ σ' := by
  have htr := tracked_of_lt hi a
  cases ht : entryOf (σ.mem (frameAt pgdir) i) with
  | none =>
    have hpres : ¬present (σ.load (pgdir, i)) = true := not_present_of_entryOf ht
    refine ⟨σ, free, by rw [unmapPde, if_neg hpres], Clears.refl h ?_, Keeps.refl B σ⟩
    rintro s ⟨i', hi', rfl | ⟨j, rfl⟩⟩ <;> rw [List.mem_singleton.mp hi']
    · rw [slots_pde hd htr, ht]
    · exact slots_pte_of_none hd ht
  | some u =>
    obtain ⟨t, ρ⟩ := u
    obtain ⟨hpres, hpg, -⟩ := entryOf_eq_some.mp ht
    rw [show σ.mem (frameAt pgdir) i = σ.load (pgdir, i) from rfl] at hpres hpg
    have htable : slotRef B σ (.pde a i) = some t := Separated.slotRef_pde hd htr ht
    have hm : B.Managed t := h.slot_managed _ t htable
    have hkva : frameAt (pteAddr (σ.load (pgdir, i)) + kernbase) = t := by
      rw [frameAt_add_kernbase, hpg]
    obtain ⟨σ₁, free₁, hloop, hcl₁, hkeeps₁⟩ := unmapPtes_spec cpu (List.finRange 1024) h hd hi
      (by rw [hkva]; exact ht) hbound
    have hd₁ : dirFrame B σ₁ a = some (frameAt pgdir) := by rw [hkeeps₁.dirFrame, hd]
    -- the inner loop has not touched the slot of the table
    have htable₁ : slots B σ₁ (.pde a i) = some (t, ρ) := by
      rw [hcl₁.kept _ (by rintro ⟨j, -, hc⟩; cases hc), slots_pde hd htr, ht]
    have hempty : ∀ j, slots B σ₁ (.pte a i j) = none := fun j =>
      hcl₁.cleared _ ⟨j, List.mem_finRange j, rfl⟩
    -- the table has no entries left, so its own slot can be emptied
    have hslots₂ : slots B (σ₁.setWord (frameAt pgdir) i 0#32) =
        Function.update (slots B σ₁) (.pde a i) none := by
      rw [slots_setWord_pde hcl₁.inv.separated hd₁ htr hempty 0#32
        (fun u hu => by rw [entryOf_zero] at hu; cases hu), entryOf_zero]
    set σ₂ := σ₁.setWord (frameAt pgdir) i 0#32 with hσ₂
    have hb := hcl₁.bound hbound t
    obtain ⟨σ₃, hdec, hsame₃, hinv₃⟩ :=
      pageDecref_cleared hcl₁.inv htable₁ hslots₂ rfl rfl (by omega)
    have hcl₂ : Clears B held {.pde a i} σ₁ free₁ σ₃
        (freeAfterClear B σ₁ held (.pde a i) free₁) :=
      Clears.single hinv₃ (by rw [hsame₃.slots, hslots₂]) rfl
    refine ⟨σ₃, _, ?_, (hcl₁.trans hcl₂).congr ?_, (hkeeps₁.trans
      (hcl₁.inv.separated.keeps_pde hd₁ hi 0#32)).trans hsame₃.keeps⟩
    · simp only [unmapPde, if_pos hpres]
      rw [kaddr_of_lt (by rw [hpg]; exact hm.1), ok_bind, hloop, ok_bind,
        pa2page_of_lt (by rw [hpg]; exact hm.1), ok_bind, hpg]
      exact hdec
    · ext s
      simp only [pdeSlots, pteSlots, List.mem_singleton, Set.mem_ofPred_eq, Set.mem_union,
        Set.mem_singleton_iff, List.mem_finRange, true_and, exists_eq_left]
      exact or_comm

/-- The outer loop, by induction on the entries `is` it still has to visit. -/
theorem unmapPdes_spec (is : List (Fin 1024)) (his : ∀ i ∈ is, i.val < 955) {σ : State}
    {free : List ℕ} (h : PageInv B σ held free) (hd : dirFrame B σ a = some (frameAt pgdir))
    (hbound : ∀ p, refs B σ p + held p ≤ 65535) :
    ∃ σ' free', is.foldlM (unmapPde B cpu pgdir) σ = .ok σ' ∧
      Clears B held (pdeSlots a is) σ free σ' free' ∧ Keeps B σ σ' := by
  induction is generalizing σ free with
  | nil =>
    refine ⟨σ, free, rfl, Clears.refl h ?_, Keeps.refl B σ⟩
    rintro s ⟨i, hi, -⟩
    cases hi
  | cons i is ih =>
    obtain ⟨σ₁, free₁, hstep, hcl₁, hkeeps₁⟩ := unmapPde_spec cpu h hd
      (his i List.mem_cons_self) hbound
    -- the directory stays where it is while its tables go
    have hd₁ : dirFrame B σ₁ a = some (frameAt pgdir) := by rw [hkeeps₁.dirFrame, hd]
    obtain ⟨σ₂, free₂, hrest, hcl₂, hkeeps₂⟩ :=
      ih (fun k hk => his k (List.mem_cons_of_mem _ hk)) hcl₁.inv hd₁ (hcl₁.bound hbound)
    refine ⟨σ₂, free₂, ?_, (hcl₁.trans hcl₂).congr ?_, hkeeps₁.trans hkeeps₂⟩
    · rw [List.foldlM_cons, hstep, ok_bind, hrest]
    · ext s
      simp [pdeSlots]

end Loops

end Jos
