import Jos.Memory.Slots

/-!
# The page invariant and the allocator

`PageInv B σ held free` instantiates the reference-counting invariant of the
library at the kernel's data: the links and counters of `pages`, the head
`page_free_list`, and the slots of all address spaces. `held` are the references
that the code holds while it runs, and `free` is the free list.

The allocator's operations have one lemma each, which says that it returns (no
`panic`), what it does to the slots, and what the free list is afterwards:
`pageAlloc_spec`, `pageFree_spec`, `incRef_spec` and `pageDecref_spec`. Emptying a
slot and then giving its reference back is `pageDecref_cleared`.

`Keeps` collects what all operations on the user part of an address space leave
alone: the environment table, `curenv`, and the part of every page directory at and
above `UTOP`.
-/

namespace Jos

variable {B : Boot} {σ σ' σ'' : State}

/-- The counters and the free list are right, with `held` references in hand. -/
def PageInv (B : Boot) (σ : State) (held : ℕ → ℕ) (free : List ℕ) : Prop :=
  RefAlloc B.Managed Slot.IsTable σ.link σ.pageFreeList σ.ref (slotRef B σ) held free

theorem PageInv.separated {held : ℕ → ℕ} {free : List ℕ} (h : PageInv B σ held free) :
    Separated B σ :=
  ⟨h.slot_managed, fun s s' p ht hs hs' => h.unique s s' p ht hs hs'⟩

/-- A free page is not a page directory. -/
theorem PageInv.dirFrame_ne_of_mem {held : ℕ → ℕ} {free : List ℕ} {a : Space} {d p : ℕ}
    (h : PageInv B σ held free) (hd : dirFrame B σ a = some d) (hp : p ∈ free) : p ≠ d := by
  rintro rfl
  cases a with
  | none =>
    apply (h.free_managed p hp).ne_kernFrame
    simpa [dirFrame] using hd.symm
  | some e => exact h.slot_ne_of_mem hp (.dir e) (by rw [slotRef_dir, hd])

/-- A free page has no references. -/
theorem PageInv.refs_of_mem {free : List ℕ} {p : ℕ} (h : PageInv B σ 0 free) (hp : p ∈ free) :
    refs B σ p = 0 := by
  have h0 := h.free_unref p hp
  rwa [Pi.zero_apply, add_zero] at h0

/-! ### Links and counters under the state's writers -/

section Writers

variable (σ) (p : ℕ)

@[simp] theorem link_setLink (v : Option ℕ) :
    (σ.setLink p v).link = Function.update σ.link p v := by
  ext q
  by_cases hq : q = p
  · subst hq; simp [State.link, State.setLink]
  · simp [State.link, State.setLink, Function.update_of_ne hq]

@[simp] theorem ref_setLink (v : Option ℕ) : (σ.setLink p v).ref = σ.ref := by
  ext q
  by_cases hq : q = p
  · subst hq; simp [State.ref, State.setLink]
  · simp [State.ref, State.setLink, Function.update_of_ne hq]

@[simp] theorem link_setRef (v : BitVec 16) : (σ.setRef p v).link = σ.link := by
  ext q
  by_cases hq : q = p
  · subst hq; simp [State.link, State.setRef]
  · simp [State.link, State.setRef, Function.update_of_ne hq]

@[simp] theorem ref_setRef (v : BitVec 16) :
    (σ.setRef p v).ref = Function.update σ.ref p v := by
  ext q
  by_cases hq : q = p
  · subst hq; simp [State.ref, State.setRef]
  · simp [State.ref, State.setRef, Function.update_of_ne hq]

end Writers

theorem dirFrame_congr (he : σ'.envs = σ.envs) (a : Space) : dirFrame B σ' a = dirFrame B σ a := by
  cases a <;> simp [dirFrame, he]

theorem slots_eq_of_mem (hm : σ'.mem = σ.mem) (he : σ'.envs = σ.envs) :
    slots B σ' = slots B σ :=
  slots_congr (dirFrame_congr he) (fun _ _ _ _ _ => by rw [hm]) (fun _ _ _ _ _ _ _ => by rw [hm])

theorem slotRef_eq_of_slots (h : slots B σ' = slots B σ) : slotRef B σ' = slotRef B σ := by
  ext s
  rw [slotRef, slotRef, h]

theorem refs_eq_of_slots (h : slots B σ' = slots B σ) (p : ℕ) : refs B σ' p = refs B σ p := by
  rw [refs, refs, slotRef_eq_of_slots h]

/-- A state that differs in `pages` and the free list only. -/
structure SameData (σ σ' : State) : Prop where
  mem : σ'.mem = σ.mem
  envs : σ'.envs = σ.envs
  envFreeList : σ'.envFreeList = σ.envFreeList
  cpus : σ'.cpus = σ.cpus
  addr : σ'.userMemCheckAddr = σ.userMemCheckAddr

theorem SameData.slots (h : SameData σ σ') : slots B σ' = slots B σ :=
  slots_eq_of_mem h.mem h.envs

theorem SameData.trans (h : SameData σ σ') (h' : SameData σ' σ'') : SameData σ σ'' where
  mem := h'.mem.trans h.mem
  envs := h'.envs.trans h.envs
  envFreeList := h'.envFreeList.trans h.envFreeList
  cpus := h'.cpus.trans h.cpus
  addr := h'.addr.trans h.addr

/-- A state that differs in the free list and in the data of managed pages only. -/
structure Recount (B : Boot) (σ σ' : State) : Prop extends SameData σ σ' where
  unmanaged : ∀ p, ¬B.Managed p → σ'.ref p = σ.ref p

theorem Recount.trans (h : Recount B σ σ') (h' : Recount B σ' σ'') : Recount B σ σ'' where
  toSameData := h.toSameData.trans h'.toSameData
  unmanaged p hp := (h'.unmanaged p hp).trans (h.unmanaged p hp)

/-! ### What a page operation leaves alone -/

/-- What the operations on the user part of an address space leave alone. -/
structure Keeps (B : Boot) (σ σ' : State) : Prop where
  envs : σ'.envs = σ.envs
  envFreeList : σ'.envFreeList = σ.envFreeList
  curenv : ∀ cpu, σ'.curenv cpu = σ.curenv cpu
  /-- The directory entries at and above `UTOP`. -/
  upper : ∀ a d, dirFrame B σ a = some d → ∀ k : Fin 1024, 955 ≤ k.val → σ'.mem d k = σ.mem d k
  /-- The tables of the kernel's entries at and above `UTOP`. -/
  upperTable : ∀ (k : Fin 1024) t, 955 ≤ k.val → k ≠ pdx uvpt →
    entryOf (σ.mem B.kernFrame k) = some t → σ'.mem t.1 = σ.mem t.1
  unmanaged : ∀ p, ¬B.Managed p → σ'.ref p = σ.ref p

theorem Keeps.refl (B : Boot) (σ : State) : Keeps B σ σ :=
  ⟨rfl, rfl, fun _ => rfl, fun _ _ _ _ _ => rfl, fun _ _ _ _ _ => rfl, fun _ _ => rfl⟩

theorem Keeps.dirFrame (h : Keeps B σ σ') (a : Space) : dirFrame B σ' a = dirFrame B σ a :=
  dirFrame_congr h.envs a

theorem Keeps.trans (h : Keeps B σ σ') (h' : Keeps B σ' σ'') : Keeps B σ σ'' where
  envs := h'.envs.trans h.envs
  envFreeList := h'.envFreeList.trans h.envFreeList
  curenv cpu := (h'.curenv cpu).trans (h.curenv cpu)
  upper a d hd k hk :=
    (h'.upper a d (by rw [h.dirFrame, hd]) k hk).trans (h.upper a d hd k hk)
  upperTable k t hk hu ht := by
    have hkern : σ'.mem B.kernFrame k = σ.mem B.kernFrame k := h.upper none _ rfl k hk
    exact (h'.upperTable k t hk hu (by rw [hkern, ht])).trans (h.upperTable k t hk hu ht)
  unmanaged p hp := (h'.unmanaged p hp).trans (h.unmanaged p hp)

theorem Recount.keeps (h : Recount B σ σ') : Keeps B σ σ' :=
  ⟨h.envs, h.envFreeList, fun cpu => by rw [State.curenv, h.cpus, State.curenv],
    fun _ _ _ _ _ => by rw [h.mem], fun _ _ _ _ _ => by rw [h.mem], h.unmanaged⟩

/-- A store into a user page table keeps the upper half. -/
theorem Separated.keeps_pte (h : Separated B σ) {a : Space} {d : ℕ} {i : Fin 1024}
    (hd : dirFrame B σ a = some d) (hi : i.val < 955) {t : ℕ} {π : BitVec 12}
    (ht : entryOf (σ.mem d i) = some (t, π)) (j : Fin 1024) (w : Word) :
    Keeps B σ (σ.setWord t j w) where
  envs := rfl
  envFreeList := rfl
  curenv _ := rfl
  upper a' d' hd' k _ := by
    rw [setWord_mem_of_ne (h.table_ne_dirFrame hd hd' (tracked_of_lt hi a) ht)]
  upperTable k t' hk hu ht' := by
    -- a table belongs to one entry, and this one is below `UTOP`
    refine setWord_mem_of_ne ?_ j w
    rintro rfl
    obtain ⟨-, rfl⟩ := h.table_inj hd (show dirFrame B σ none = some B.kernFrame from rfl)
      (tracked_of_lt hi a) hu ht ht'
    omega
  unmanaged _ _ := rfl

/-- A store into a user slot of a page directory keeps the upper half. -/
theorem Separated.keeps_pde (h : Separated B σ) {a : Space} {d : ℕ} {i : Fin 1024}
    (hd : dirFrame B σ a = some d) (hi : i.val < 955) (w : Word) :
    Keeps B σ (σ.setWord d i w) where
  envs := rfl
  envFreeList := rfl
  curenv _ := rfl
  upper a' d' hd' k hk := by
    by_cases hdd : d' = d
    · subst hdd
      rw [setWord_mem_self, Function.update_of_ne]
      rintro rfl
      omega
    · rw [setWord_mem_of_ne hdd]
  upperTable k t hk hu ht :=
    setWord_mem_of_ne (h.table_ne_dirFrame (a := none) rfl hd hu ht).symm i w
  unmanaged _ _ := rfl

/-- Writing a frame that is no table changes no slot and keeps the upper half. -/
theorem setFrame_noTable {f : ℕ} (hf : ∀ s : Slot, s.IsTable → slotRef B σ s ≠ some f)
    (hm : B.Managed f) (c : Fin 1024 → Word) :
    slots B (σ.setFrame f c) = slots B σ ∧ Keeps B σ (σ.setFrame f c) := by
  have hmem : ∀ f', f' ≠ f → (σ.setFrame f c).mem f' = σ.mem f' := fun f' hne => by
    simp [State.setFrame, Function.update_of_ne hne]
  -- `f` holds neither a directory nor a page table, which are all that the slots read
  have hdir : ∀ a d, dirFrame B σ a = some d → d ≠ f := by
    rintro a d hd rfl
    cases a with
    | none =>
      exact hm.ne_kernFrame (by simpa [dirFrame] using hd.symm)
    | some e => exact hf (.dir e) trivial (by rw [slotRef_dir, hd])
  have htab : ∀ a d i t, dirFrame B σ a = some d → Tracked a i →
      entryOf (σ.mem d i) = some t → t.1 ≠ f := by
    rintro a d i ⟨t, π⟩ hd htr ht rfl
    exact hf (.pde a i) trivial (Separated.slotRef_pde hd htr ht)
  refine ⟨slots_congr ?_ ?_ ?_, rfl, rfl, fun _ => rfl, ?_, ?_, fun _ _ => rfl⟩
  · intro a
    exact dirFrame_congr rfl a
  · exact fun a d hd i _ => by rw [hmem d (hdir a d hd)]
  · exact fun a d i t hd hi ht => hmem _ (htab a d i t hd (tracked_of_lt hi a) ht)
  · exact fun a d hd k _ => by rw [hmem d (hdir a d hd)]
  · exact fun k t _ hu ht => hmem _ (htab none _ k t rfl hu ht)

/-- A frame that no slot refers to is no table. -/
theorem setFrame_unref {f : ℕ} (hf : ∀ s, slotRef B σ s ≠ some f) (hm : B.Managed f)
    (c : Fin 1024 → Word) :
    slots B (σ.setFrame f c) = slots B σ ∧ Keeps B σ (σ.setFrame f c) :=
  setFrame_noTable (fun s _ => hf s) hm c

/-- A page that is mapped below `UTOP` is no table. -/
theorem Separated.setFrame_mapped (h : Separated B σ) {f : ℕ} {a : Space} {i j : Fin 1024}
    (hf : slotRef B σ (.pte a i j) = some f) (c : Fin 1024 → Word) :
    slots B (σ.setFrame f c) = slots B σ ∧ Keeps B σ (σ.setFrame f c) := by
  refine setFrame_noTable (fun s hs hsf => ?_) (h.managed _ f hf) c
  -- a table is referred to by its own slot only
  obtain rfl := h.unique s _ f hs hsf hf
  exact hs

/-! ### The allocator -/

section Allocator

variable {held : ℕ → ℕ} {free : List ℕ} {p : ℕ}

theorem pageAlloc_nil (h : PageInv B σ held []) (flags : Word) :
    pageAlloc B flags σ = .ok (none, σ) := by
  have hnil : σ.pageFreeList = none := h.chain.head_none_iff.mpr rfl
  simp [pageAlloc, hnil]

/-- `page_alloc` takes the first free page, and clears it when asked to. -/
theorem pageAlloc_spec (h : PageInv B σ held (p :: free)) (flags : Word) :
    ∃ σ', pageAlloc B flags σ = .ok (some p, σ') ∧ PageInv B σ' held free ∧
      slots B σ' = slots B σ ∧ Keeps B σ σ' ∧
      (flags &&& allocZero ≠ 0#32 → σ'.mem p = fun _ => 0#32) ∧
      (∀ f, f ≠ p → σ'.mem f = σ.mem f) ∧ σ'.ref = σ.ref := by
  have hhd : σ.pageFreeList = some p := h.chain.head_eq
  have hm : B.Managed p := h.free_managed p List.mem_cons_self
  -- the state once the page is off the list
  set σ₁ : State := { σ.setLink p none with pageFreeList := σ.link p } with hσ₁
  have hsame : Recount B σ σ₁ :=
    ⟨⟨rfl, rfl, rfl, rfl, rfl⟩, fun q _ => congrFun (ref_setLink σ p none) q⟩
  have hslots₁ : slots B σ₁ = slots B σ := hsame.slots
  have hinv₁ : PageInv B σ₁ held free := by
    have hp := h.pop
    rw [← link_setLink, ← slotRef_eq_of_slots hslots₁, ← ref_setLink σ p none] at hp
    exact hp
  by_cases hz : flags &&& allocZero ≠ 0#32
  · -- nothing refers to a free page, so clearing it is invisible to the slots
    have hunref : ∀ s, slotRef B σ₁ s ≠ some p := by
      intro s
      rw [slotRef_eq_of_slots hslots₁]
      exact h.slot_ne_of_mem List.mem_cons_self s
    obtain ⟨hslots₂, hkeeps₂⟩ := setFrame_unref hunref hm fun _ => 0#32
    refine ⟨σ₁.setFrame p fun _ => 0#32, ?_, ?_, hslots₂.trans hslots₁,
      hsame.keeps.trans hkeeps₂, ?_, ?_, ?_⟩
    · simp only [pageAlloc, hhd, if_pos hz, page2kva_of_lt hm.1, ok_bind, hm.frameAt_kva]
      rfl
    · unfold PageInv
      rw [slotRef_eq_of_slots hslots₂]
      exact hinv₁
    · intro _
      simp [State.setFrame]
    · intro f hf
      simp [State.setFrame, Function.update_of_ne hf, hσ₁, State.setLink]
    · exact ref_setLink σ p none
  · refine ⟨σ₁, ?_, hinv₁, hslots₁, hsame.keeps, fun hc => absurd hc hz, fun f _ => rfl,
      ref_setLink σ p none⟩
    simp only [pageAlloc, hhd, if_neg hz]
    rfl

/-- Inverting a `page_alloc` that has returned a page. -/
theorem pageAlloc_some {flags : Word} (h : PageInv B σ held free)
    (hrun : pageAlloc B flags σ = .ok (some p, σ')) :
    ∃ rest, free = p :: rest ∧ PageInv B σ' held rest ∧ slots B σ' = slots B σ ∧ Keeps B σ σ' ∧
      (flags &&& allocZero ≠ 0#32 → σ'.mem p = fun _ => 0#32) := by
  cases free with
  | nil =>
    rw [pageAlloc_nil h] at hrun
    cases hrun
  | cons q rest =>
    obtain ⟨σ₁, hrun', hinv, hslots, hkeeps, hzero, -⟩ := pageAlloc_spec h flags
    obtain ⟨hq, rfl⟩ := ok_unique_pair hrun' hrun
    obtain rfl := Option.some.inj hq
    exact ⟨rest, rfl, hinv, hslots, hkeeps, hzero⟩

/-- `page_free` of an allocated page without references. -/
theorem pageFree_spec (h : PageInv B σ held free) (hm : B.Managed p) (hp : p ∉ free)
    (h0 : refs B σ p + held p = 0) :
    ∃ σ', pageFree p σ = .ok σ' ∧ PageInv B σ' held (p :: free) ∧ Recount B σ σ' := by
  have hlink : σ.link p = none := h.link_none p hp
  have href : σ.ref p = 0#16 := by
    have hc := h.count p hm
    rw [show refCount (slotRef B σ) p + held p = 0 from h0] at hc
    exact hc
  refine ⟨{ σ.setLink p σ.pageFreeList with pageFreeList := some p }, ?_, ?_,
    ⟨rfl, rfl, rfl, rfl, rfl⟩, fun q _ => congrFun (ref_setLink σ p σ.pageFreeList) q⟩
  · simp [pageFree, hlink, href]
  · have hpush := h.push hm hp h0
    rw [← link_setLink, ← ref_setLink σ p σ.pageFreeList] at hpush
    exact hpush

/-- Writing the counter of a managed page. -/
theorem ref_setRef_unmanaged (hm : B.Managed p) {v : BitVec 16} (q : ℕ) (hq : ¬B.Managed q) :
    (σ.setRef p v).ref q = σ.ref q := by
  rw [ref_setRef, Function.update_of_ne]
  rintro rfl
  exact hq hm

theorem incRef_spec (h : PageInv B σ held free) (hm : B.Managed p) (hp : p ∉ free) :
    PageInv B (σ.incRef p) (held + Pi.single p 1) free ∧ Recount B σ (σ.incRef p) := by
  refine ⟨?_, ⟨rfl, rfl, rfl, rfl, rfl⟩, ref_setRef_unmanaged hm⟩
  have hr := h.retain hm hp
  rw [← ref_setRef, ← link_setRef σ p (σ.ref p + 1#16)] at hr
  exact hr

/-- `page_decref` gives up one reference in hand, and frees the page with the last
one. -/
theorem pageDecref_spec (h : PageInv B σ (held + Pi.single p 1) free)
    (hlt : refs B σ p + held p < 65536) :
    ∃ σ', pageDecref p σ = .ok σ' ∧ Recount B σ σ' ∧
      PageInv B σ' held (if refs B σ p + held p = 0 then p :: free else free) := by
  set σ₁ := σ.setRef p (σ.ref p - 1#16) with hσ₁
  have hm : B.Managed p := h.held_managed p (by simp)
  have hsame : Recount B σ σ₁ := ⟨⟨rfl, rfl, rfl, rfl, rfl⟩, ref_setRef_unmanaged hm⟩
  have hinv₁ : PageInv B σ₁ held free := by
    have hr := h.release
    rw [← ref_setRef, ← link_setRef σ p (σ.ref p - 1#16),
      ← slotRef_eq_of_slots hsame.slots] at hr
    exact hr
  have hval : σ₁.ref p = σ.ref p - 1#16 := by
    rw [hσ₁, ref_setRef, Function.update_self]
  have hz : σ₁.ref p = 0#16 ↔ refs B σ p + held p = 0 := by
    rw [hval]
    exact h.sub_one_eq_zero_iff hlt
  by_cases h0 : refs B σ p + held p = 0
  · -- the last reference is gone: neither check of `page_free` fails
    have hp : p ∉ free := h.notMem_of_held (by simp)
    obtain ⟨σ₂, hfree, hinv₂, hsame₂⟩ := pageFree_spec hinv₁ hm hp
      (by rw [refs_eq_of_slots hsame.slots]; exact h0)
    refine ⟨σ₂, ?_, hsame.trans hsame₂, by rw [if_pos h0]; exact hinv₂⟩
    simp only [pageDecref]
    rw [if_pos (hz.mpr h0)]
    exact hfree
  · refine ⟨σ₁, ?_, hsame, by rw [if_neg h0]; exact hinv₁⟩
    simp only [pageDecref]
    rw [if_neg (fun hc => h0 (hz.mp hc))]

/-- The free list after the slot `s` has been emptied. -/
def freeAfterClear (B : Boot) (σ : State) (held : ℕ → ℕ) (s : Slot) (free : List ℕ) : List ℕ :=
  match slots B σ s with
  | none => free
  | some (p, _) => if refs B σ p + held p = 1 then p :: free else free

/-- Emptying a slot and then calling `page_decref` on the page it referred to. -/
theorem pageDecref_cleared {s : Slot} {π : BitVec 12} (h : PageInv B σ held free)
    (hs : slots B σ s = some (p, π)) (hslots : slots B σ' = Function.update (slots B σ) s none)
    (hpages : σ'.pages = σ.pages) (hfl : σ'.pageFreeList = σ.pageFreeList)
    (hlt : refs B σ p + held p ≤ 65536) :
    ∃ σ'', pageDecref p σ' = .ok σ'' ∧ Recount B σ' σ'' ∧
      PageInv B σ'' held (freeAfterClear B σ held s free) := by
  have href : slotRef B σ s = some p := by
    rw [slotRef, hs]
    rfl
  -- the reference of the slot is now in hand
  have hinv : PageInv B σ' (held + Pi.single p 1) free := by
    unfold PageInv State.link State.ref
    rw [slotRef_update hslots, hpages, hfl]
    exact h.clear href
  have hcount : refs B σ' p + 1 = refs B σ p := by
    have hu := refCount_update_none href p
    rw [if_pos rfl] at hu
    rw [refs, slotRef_update hslots]
    exact hu
  obtain ⟨σ'', hdec, hsame, hinv'⟩ := pageDecref_spec hinv (by omega)
  refine ⟨σ'', hdec, hsame, ?_⟩
  have hlist : freeAfterClear B σ held s free =
      if refs B σ' p + held p = 0 then p :: free else free := by
    simp only [freeAfterClear, hs]
    exact if_congr (by omega) rfl rfl
  rw [hlist]
  exact hinv'

end Allocator

end Jos
