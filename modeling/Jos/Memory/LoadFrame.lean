import Jos.Memory.EnvCreate

/-!
# What loading a program leaves alone

`page_insert` on an environment that is being loaded writes its page directory, one of its page
tables and pages that were free. The first part of this module says so for the frames
(`pageInsert_mem`), the last part for the slots (`LoadInv.mapPage_effect`).

In between, `Foreign` is what `e` has no business with: the frames that are reserved, and those
that another address space refers to. A page of `e` is not among them, because it is referred to
once. `Apart` puts together all that does not change for others while `e` is loaded. It composes
(`Apart.trans`), so that it has to be shown for one page and for one byte only.
-/

namespace Jos

variable {B : Boot} {σ σ' σ₀ σ₁ : State} {cpu c : ℕ} {e : Fin nenv} {free free' : List ℕ}
  {efree : List (Fin nenv)} {O : Set ℕ} {M T : Finset ℕ} {va pgdir : Word} {a : Space}
  {held : ℕ → ℕ} {f : ℕ}

/-! ### The frames that the page table operations write -/

/-- `page_alloc(0)` writes no memory. -/
theorem pageAlloc_zero_mem {r : Option ℕ} (h : pageAlloc B 0#32 σ = .ok (r, σ')) :
    σ'.mem = σ.mem := by
  unfold pageAlloc at h
  split at h
  · obtain ⟨-, rfl⟩ := Prod.mk.inj (Except.ok.inj h)
    rfl
  · simp only at h
    split at h
    · next hflag => exact absurd (BitVec.zero_and) hflag
    · obtain ⟨-, rfl⟩ := Prod.mk.inj (Except.ok.inj h)
      rfl

/-- `page_remove` writes the page table of `va`. -/
theorem pageRemove_mem (h : PageInv B σ held free) (hd : dirFrame B σ a = some (frameAt pgdir))
    (hi : (pdx va).val < 955) (hrun : pageRemove B cpu pgdir va σ = .ok σ')
    (hf : ∀ t, entryOf (σ.mem (frameAt pgdir) (pdx va)) = some t → f ≠ t.1) :
    σ'.mem f = σ.mem f := by
  obtain ⟨hnone, hsome⟩ := pageLookup_spec h hd hi
  obtain ⟨⟨found, σ₁⟩, hlook, hrest⟩ := bind_eq_ok.mp hrun
  cases hs : slots B σ (.pte a (pdx va) (ptx va)) with
  | none =>
    obtain ⟨rfl, rfl⟩ := ok_unique_pair (hnone hs) hlook
    obtain rfl := Except.ok.inj hrest
    rfl
  | some u =>
    obtain ⟨p, π⟩ := u
    obtain ⟨kva, t, ρ, hlook', rfl, ht, -⟩ := hsome p π hs
    obtain ⟨rfl, rfl⟩ := ok_unique_pair hlook' hlook
    simp only at hrest
    split at hrest
    · -- `page_decref` and `tlb_invalidate` come on top of the cleared entry, and write no memory
      obtain ⟨σ₂, hdec, hret⟩ := bind_eq_ok.mp hrest
      obtain rfl := Except.ok.inj hret
      rw [(tlbInvalidate_keeps (B := B) cpu pgdir va σ₂).2.2.2.2,
        (Stepwise.pageDecref_same hdec).mem]
      exact setWord_mem_of_ne (hf _ ht) _ _
    · obtain rfl := Except.ok.inj hrest
      rfl

/-- Once the walk has found the page table of `va`, `page_insert` writes nothing else. -/
theorem pageInsertAt_mem {pp : ℕ} {perm kva : Word} {ρ : BitVec 12} {r : ℤ}
    (h : PageInv B σ held free) (hd : dirFrame B σ a = some (frameAt pgdir))
    (hi : (pdx va).val < 955)
    (ht : entryOf (σ.mem (frameAt pgdir) (pdx va)) = some (frameAt kva, ρ)) (hm : B.Managed pp)
    (hpp : pp ∉ free) (hrun : pageInsertAt B cpu pgdir pp va perm (kva, ptx va) σ = .ok (r, σ'))
    (hf : f ≠ frameAt kva) : σ'.mem f = σ.mem f := by
  obtain ⟨hinv, hsame⟩ := incRef_spec h hm hpp
  obtain ⟨σ₁, hold, rfl⟩ := pageInsertAt_ok hrun
  have hmem : σ₁.mem f = σ.mem f := by
    obtain hrem | rfl := hold
    · have hd' : dirFrame B (σ.incRef pp) a = some (frameAt pgdir) := by
        rw [hsame.keeps.dirFrame, hd]
      rw [pageRemove_mem hinv hd' hi hrem fun t ht' => ?_, hsame.mem]
      rw [hsame.mem, ht] at ht'
      rwa [← Option.some.inj ht']
    · rw [hsame.mem]
  rw [← hmem]
  exact setWord_mem_of_ne hf _ _

/-- `page_insert` writes the page directory, the page table of `va` and, if it needs one, the free
page that becomes the page table. -/
theorem pageInsert_mem {pp : ℕ} {perm : Word} {r : ℤ} (h : PageInv B σ held free)
    (hd : dirFrame B σ a = some (frameAt pgdir)) (hi : (pdx va).val < 955)
    (hm : B.Managed pp) (hpp : pp ∉ free)
    (hrun : pageInsert B cpu pgdir pp va perm σ = .ok (r, σ')) (hdir : f ≠ frameAt pgdir)
    (hfree : f ∉ free)
    (hf : ∀ t, entryOf (σ.mem (frameAt pgdir) (pdx va)) = some t → f ≠ t.1) :
    σ'.mem f = σ.mem f := by
  have htr := tracked_of_lt hi a
  obtain ⟨⟨pte, σ₁⟩, hwalk, hrest⟩ := bind_eq_ok.mp hrun
  cases ht : entryOf (σ.mem (frameAt pgdir) (pdx va)) with
  | some t =>
    obtain ⟨t, ρ⟩ := t
    obtain ⟨kva, hwalk', rfl⟩ := pgdirWalk_present h hd htr ht true
    obtain ⟨rfl, rfl⟩ := ok_unique_pair hwalk' hwalk
    exact pageInsertAt_mem h hd hi ht hm hpp hrest (hf _ ht)
  | none =>
    cases free with
    | nil =>
      obtain ⟨rfl, rfl⟩ := ok_unique_pair (pgdirWalk_full h ht) hwalk
      obtain ⟨-, rfl⟩ := Prod.mk.inj (Except.ok.inj hrest)
      rfl
    | cons t rest =>
      -- the page that becomes the table was free
      obtain ⟨σ₂, kva, hwalk', rfl, hinv, -, henvs, -, -, hentry, -, hother, -⟩ :=
        pgdirWalk_alloc h hd htr ht
      obtain ⟨rfl, rfl⟩ := ok_unique_pair hwalk' hwalk
      have hne : f ≠ frameAt kva := fun hc => hfree (hc ▸ List.mem_cons_self)
      have hd' : dirFrame B σ₂ a = some (frameAt pgdir) := by rw [dirFrame_congr henvs, hd]
      rw [pageInsertAt_mem hinv hd' hi hentry hm (fun hc => hpp (List.mem_cons_of_mem _ hc)) hrest
        hne]
      funext k
      exact hother f k hne fun hc => hdir (Prod.mk.inj hc).1

/-! ### The frames of others -/

/-- A frame that is no business of `e`: it is reserved, or another address space refers to it. -/
def Foreign (B : Boot) (e : Fin nenv) (σ : State) (f : ℕ) : Prop :=
  ¬B.Managed f ∨ ∃ s : Slot, s.owner ≠ some e ∧ slotRef B σ s = some f

/-- From `σ` to `σ'` nothing has happened to what is not `e`'s, nor at and above `UTOP`. -/
structure Apart (B : Boot) (e : Fin nenv) (σ σ' : State) : Prop where
  envs : ∀ e', e' ≠ e → σ'.envs e' = σ.envs e'
  dirs : ∀ a, dirFrame B σ' a = dirFrame B σ a
  slots : ∀ s : Slot, s.owner ≠ some e → slots B σ' s = slots B σ s
  mem : ∀ f, Foreign B e σ f → σ'.mem f = σ.mem f
  upper : ∀ a d, dirFrame B σ a = some d → ∀ k : Fin 1024, 955 ≤ k.val → σ'.mem d k = σ.mem d k

namespace Apart

theorem foreign (h : Apart B e σ σ') (hf : Foreign B e σ f) : Foreign B e σ' f := by
  refine hf.imp_right ?_
  rintro ⟨s, hs, href⟩
  refine ⟨s, hs, ?_⟩
  rwa [slotRef, h.slots s hs]

theorem trans (h : Apart B e σ₀ σ) (h' : Apart B e σ σ') : Apart B e σ₀ σ' where
  envs e' he' := (h'.envs e' he').trans (h.envs e' he')
  dirs a := (h'.dirs a).trans (h.dirs a)
  slots s hs := (h'.slots s hs).trans (h.slots s hs)
  mem f hf := (h'.mem f (h.foreign hf)).trans (h.mem f hf)
  upper a d hd k hk := (h'.upper a d ((h.dirs a).trans hd) k hk).trans (h.upper a d hd k hk)

theorem of_keeps (hk : Keeps B σ σ')
    (hs : ∀ s : Slot, s.owner ≠ some e → Jos.slots B σ' s = Jos.slots B σ s)
    (hm : ∀ f, Foreign B e σ f → σ'.mem f = σ.mem f) : Apart B e σ σ' :=
  ⟨fun e' _ => by rw [hk.envs], hk.dirFrame, hs, hm, hk.upper⟩

theorem of_sameSpaces (h : SameSpaces σ σ') (he : ∀ e', e' ≠ e → σ'.envs e' = σ.envs e') :
    Apart B e σ σ' :=
  ⟨he, h.dirFrame, fun s _ => by rw [h.slots], fun f _ => by rw [h.mem],
    fun _ d _ k _ => by rw [h.mem]⟩

end Apart

namespace Loaded

/-- A page of `e` is in one slot. -/
theorem slot_unique (h : Loaded e O (slots B σ) free M T) {s s' : Slot} {p : ℕ}
    (hs : s.owner = some e) (href : slotRef B σ s = some p) (href' : slotRef B σ s' = some p) :
    s' = s :=
  eq_of_refCount_eq_one (h.sole s p hs href) href href'

/-- So it is not a frame of others. -/
theorem not_foreign (h : Loaded e O (slots B σ) free M T) (hinv : PageInv B σ held free')
    {s : Slot} {p : ℕ} (hs : s.owner = some e) (href : slotRef B σ s = some p) :
    ¬Foreign B e σ p := by
  rintro (hm | ⟨s', hs', href'⟩)
  · exact hm (hinv.slot_managed s p href)
  · rw [h.slot_unique hs href href'] at hs'
    exact hs' hs

end Loaded

/-- A free page is not a frame of others. -/
theorem PageInv.not_foreign (h : PageInv B σ held free) {p : ℕ} (hp : p ∈ free) :
    ¬Foreign B e σ p := by
  rintro (hm | ⟨s, -, href⟩)
  · exact hm (h.free_managed p hp)
  · exact h.slot_ne_of_mem hp s href

/-! ### One page -/

/-- What `page_insert` of the page in hand does: two slots of `e` may change, and three
frames. -/
theorem InHand.pageInsert_effect {p : ℕ} {r : ℤ} (h : InHand B e O c efree σ p free M)
    (hva : va < utop)
    (hrun : pageInsert B cpu (σ.envs e).envPgdir p va (pteW ||| pteU) σ = .ok (r, σ')) :
    Keeps B σ σ' ∧
    (∀ s, s ≠ .pte (some e) (pdx va) (ptx va) → s ≠ .pde (some e) (pdx va) →
      slots B σ' s = slots B σ s) ∧
    ∀ f, f ∉ free → (∀ s : Slot, s.IsTable → s.owner = some e → slotRef B σ s ≠ some f) →
      σ'.mem f = σ.mem f := by
  have hi := (lt_utop_iff va).mp hva
  have hd := h.env.dirFrame_live (B := B) h.live
  have hperm : (pteW ||| pteU).toNat < 4096 := by decide
  have hmem (f : ℕ) (hfree : f ∉ free)
      (hf : ∀ s : Slot, s.IsTable → s.owner = some e → slotRef B σ s ≠ some f) :
      σ'.mem f = σ.mem f := by
    refine pageInsert_mem h.page hd hi h.fresh.managed h.fresh.notMem hrun ?_ hfree fun t ht => ?_
    · rintro rfl
      exact hf (.dir e) trivial rfl (by rw [slotRef_dir, hd])
    · rintro rfl
      exact hf (.pde (some e) (pdx va)) trivial rfl
        (Separated.slotRef_pde hd (tracked_of_lt hi _) ht)
  cases ht : entryOf (σ.mem (frameAt (σ.envs e).envPgdir) (pdx va)) with
  | some t =>
    obtain ⟨σ₁, hrun', hslots, hkeeps, -⟩ :=
      pageInsert_present h.page hd hi ht h.fresh.managed h.fresh.notMem hperm h.bound_held cpu
    obtain ⟨-, rfl⟩ := ok_unique_pair hrun' hrun
    refine ⟨hkeeps, fun s hs _ => ?_, hmem⟩
    rw [hslots, Function.update_of_ne hs]
  | none =>
    cases free with
    | nil =>
      -- `page_insert` has failed
      obtain ⟨-, rfl⟩ := ok_unique_pair (pageInsert_full h.page ht cpu p (pteW ||| pteU)) hrun
      exact ⟨Keeps.refl B σ, fun _ _ _ => rfl, hmem⟩
    | cons t free =>
      obtain ⟨σ₁, hrun', hslots, hkeeps, -⟩ :=
        pageInsert_alloc h.page hd hi ht h.fresh.managed h.fresh.notMem hperm h.bound_held cpu
      obtain ⟨-, rfl⟩ := ok_unique_pair hrun' hrun
      refine ⟨hkeeps, fun s hs hs' => ?_, hmem⟩
      rw [hslots, Function.update_of_ne hs, Function.update_of_ne hs']

/-- What the loop of `region_alloc` does for one page. -/
theorem LoadInv.mapPage_effect (h : LoadInv B e O c efree σ free M) (hva : va < utop)
    (hrun : Jos.regionAllocLoop B cpu e 1 va σ = .ok σ') :
    Keeps B σ σ' ∧
    (∀ s, s ≠ .pte (some e) (pdx va) (ptx va) → s ≠ .pde (some e) (pdx va) →
      slots B σ' s = slots B σ s) ∧
    ∀ f, f ∉ free → (∀ s : Slot, s.IsTable → s.owner = some e → slotRef B σ s ≠ some f) →
      σ'.mem f = σ.mem f := by
  cases free with
  | nil =>
    simp only [Jos.regionAllocLoop, pageAlloc_nil h.page, ok_bind] at hrun
    cases hrun
  | cons p free =>
    obtain ⟨σ₁, halloc, hhand, hslots, hkeeps⟩ := h.alloc
    simp only [Jos.regionAllocLoop, halloc, ok_bind] at hrun
    obtain ⟨⟨r, σ₂⟩, hins, hret⟩ := bind_eq_ok.mp hrun
    obtain rfl := Except.ok.inj hret
    obtain ⟨hkeeps', hslots', hmem⟩ := hhand.pageInsert_effect hva hins
    -- taking the page off the list shows neither in a slot nor in memory
    refine ⟨hkeeps.trans hkeeps', fun s hs hs' => ?_, fun f hfree hf => ?_⟩
    · rw [hslots' s hs hs', hslots]
    · rw [hmem f (fun hc => hfree (List.mem_cons_of_mem _ hc)) fun s ht hs => ?_,
        pageAlloc_zero_mem halloc]
      rw [slotRef_eq_of_slots hslots]
      exact hf s ht hs

/-- One page of `e` is no matter of others. -/
theorem LoadInv.mapPage_apart (h : LoadInv B e O c efree σ free M) (hva : va < utop)
    (hrun : Jos.regionAllocLoop B cpu e 1 va σ = .ok σ') : Apart B e σ σ' := by
  obtain ⟨hkeeps, hslots, hmem⟩ := h.mapPage_effect hva hrun
  refine .of_keeps hkeeps (fun s hs => ?_) fun f hf => ?_
  · refine hslots s ?_ ?_ <;> (rintro rfl; exact hs rfl)
  · refine hmem f (fun hc => h.page.not_foreign hc hf) fun s _ hs href => ?_
    exact h.loaded.not_foreign h.page hs href hf

end Jos
