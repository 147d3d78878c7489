import Jos.Memory.LoadProgram

/-!
# What `load_icode` does, action by action

Reading a header does not change the state, so a run of `load_icode` that returns is the sequence
of its actions (`loadIcode_run`), whatever the headers say.

As long as these are below `UTOP` they stay within the pages of the new environment
(`Underway.exec`). That includes the page that `region_alloc` may lose: it is lost when no page is
free any more, and from then on no page is mapped.
-/

namespace Jos

variable {V : Variables} {B : Boot} {σ σ' σ₀ σ₁ : State} {cpu c n : ℕ} {e : Fin nenv}
  {free free₀ : List ℕ} {efree efree₀ : List (Fin nenv)} {O : Set ℕ} {M : Finset ℕ}
  {va dst src binary ph : Word} {as : List LoadAction} {t : ℕ}

/-! ### A run is the sequence of its actions -/

/-- What a list of actions does. -/
def LoadAction.execAll (V : Variables) (B : Boot) (cpu : ℕ) (e : Fin nenv) (as : List LoadAction)
    (σ : State) : Except Panic State := as.foldlM (fun σ a => a.exec V B cpu e σ) σ

/-- A piece of work that does what its log says. -/
def Acted (V : Variables) (B : Boot) (cpu : ℕ) (e : Fin nenv) (σ : State) (x : Load State) : Prop :=
  ∀ as σ', x = ⟨as, .ok σ'⟩ → LoadAction.execAll V B cpu e as σ = .ok σ'

/-- Reading comes first, and leaves no log. -/
theorem Load.quiet_bind_eq {α β : Type} {x : Except Panic α} {f : α → Load β} {b : β} :
    (Load.quiet x >>= f) = ⟨as, .ok b⟩ ↔ ∃ a, x = .ok a ∧ f a = ⟨as, .ok b⟩ := by
  rw [Logged.bind_eq_mk]
  constructor
  · rintro ⟨_, a, l₂, hx, hf, rfl⟩
    obtain ⟨rfl, hres⟩ := Logged.mk.inj hx
    exact ⟨a, hres, hf⟩
  · rintro ⟨a, rfl, hf⟩
    exact ⟨[], a, as, rfl, hf, rfl⟩

namespace Acted

theorem pure (σ : State) : Acted V B cpu e σ (return σ) := by
  rintro as σ' h
  obtain ⟨rfl, hσ⟩ := Logged.mk.inj h
  exact hσ

/-- Reading changes nothing. -/
theorem quiet {α : Type} {x : Except Panic α} {f : α → Load State}
    (h : ∀ a, Acted V B cpu e σ (f a)) : Acted V B cpu e σ (Load.quiet x >>= f) := by
  intro as σ' hrun
  obtain ⟨a, -, hf⟩ := Load.quiet_bind_eq.mp hrun
  exact h a as σ' hf

/-- An action. -/
theorem act (a : LoadAction) (σ : State) : Acted V B cpu e σ (Load.act V B cpu e a σ) := by
  rintro as σ' h
  obtain ⟨rfl, hexec⟩ := Logged.mk.inj h
  change [a].foldlM _ σ = _
  rw [List.foldlM_cons, hexec]
  rfl

/-- Two pieces of work, one after the other. -/
theorem bind {x : Load State} {f : State → Load State} (hx : Acted V B cpu e σ x)
    (hf : ∀ σ₁, Acted V B cpu e σ₁ (f σ₁)) : Acted V B cpu e σ (x >>= f) := by
  intro as σ' hrun
  obtain ⟨l₁, σ₁, l₂, hfirst, hsecond, rfl⟩ := Logged.bind_eq_mk.mp hrun
  rw [LoadAction.execAll, List.foldlM_append]
  exact bind_eq_ok.mpr ⟨σ₁, hx l₁ σ₁ hfirst, hf σ₁ l₂ σ' hsecond⟩

end Acted

/-- The three actions for a header. -/
theorem loadSegment_acted (ph : Word) (σ : State) :
    Acted V B cpu e σ (loadSegment V B cpu e binary ph σ) := by
  unfold loadSegment
  refine .quiet fun type => ?_
  -- the three actions, with the fields read before each of them
  split
  · refine .quiet fun memsz => .quiet fun va => (Acted.act _ _).bind fun σ₁ => ?_
    refine .quiet fun filesz => .quiet fun offset => .quiet fun va => ?_
    refine (Acted.act _ _).bind fun σ₂ => ?_
    exact .quiet fun filesz => .quiet fun memsz => .quiet fun va => .act _ _
  · exact .pure σ

theorem loadSegments_acted (n : ℕ) (ph : Word) (σ : State) :
    Acted V B cpu e σ (loadSegments V B cpu e binary n ph σ) := by
  induction n generalizing ph σ with
  | zero => exact .pure σ
  | succ n ih => exact (loadSegment_acted ph σ).bind fun σ₁ => ih _ σ₁

/-- `load_icode`: the actions for the headers, with the directory of `e` in `cr3`, and then the
stack. -/
theorem loadIcode_run (h : loadIcode V B cpu e binary σ = ⟨as, .ok σ'⟩) :
    ∃ entry σ₁, kernbase ≤ (σ.envs e).envPgdir ∧
      LoadAction.execAll V B cpu e as (lcr3 cpu ((σ.envs e).envPgdir - kernbase) σ) = .ok σ₁ ∧
      regionAlloc B cpu e (ustacktop - pgsize) pgsize
        (lcr3 cpu (B.kernPgdir - kernbase) (setEntry e entry σ₁)) = .ok σ' := by
  obtain ⟨phoff, -, h⟩ := Load.quiet_bind_eq.mp h
  obtain ⟨phnum, -, h⟩ := Load.quiet_bind_eq.mp h
  obtain ⟨pa, hpa, h⟩ := Load.quiet_bind_eq.mp h
  obtain ⟨hhigh, rfl⟩ := paddr_eq_ok.mp hpa
  -- only the loop has a log
  obtain ⟨as', σ₁, _, hsegments, hend, rfl⟩ := Logged.bind_eq_mk.mp h
  obtain ⟨entry, -, hend⟩ := Load.quiet_bind_eq.mp hend
  obtain ⟨pa', hpa', hend⟩ := Load.quiet_bind_eq.mp hend
  obtain ⟨-, rfl⟩ := paddr_eq_ok.mp hpa'
  obtain ⟨rfl, hstack⟩ := Logged.mk.inj hend
  rw [List.append_nil]
  exact ⟨entry, σ₁, hhigh, loadSegments_acted _ _ _ as' σ₁ hsegments, hstack⟩

/-! ### What the actions leave alone -/

theorem storeByte_mem {v : Byte} (h : storeByte cpu va v σ = .ok σ') :
    ∃ mem, σ' = { σ with mem := mem } := by
  unfold storeByte at h
  split at h
  · obtain rfl := Except.ok.inj h
    exact ⟨_, rfl⟩
  · cases h

theorem memmoveUp_mem (h : memmoveUp V cpu n dst src σ = .ok σ') :
    ∃ mem, σ' = { σ with mem := mem } := by
  induction n generalizing σ dst src with
  | zero =>
    obtain rfl := Except.ok.inj h
    exact ⟨_, rfl⟩
  | succ n ih =>
    obtain ⟨b, -, h⟩ := bind_eq_ok.mp h
    obtain ⟨σ₁, hstore, hrest⟩ := bind_eq_ok.mp h
    obtain ⟨mem, rfl⟩ := storeByte_mem hstore
    obtain ⟨mem', rfl⟩ := ih hrest
    exact ⟨mem', rfl⟩

theorem memmoveDown_mem (h : memmoveDown V cpu n dst src σ = .ok σ') :
    ∃ mem, σ' = { σ with mem := mem } := by
  induction n generalizing σ with
  | zero =>
    obtain rfl := Except.ok.inj h
    exact ⟨_, rfl⟩
  | succ n ih =>
    obtain ⟨b, -, h⟩ := bind_eq_ok.mp h
    obtain ⟨σ₁, hstore, hrest⟩ := bind_eq_ok.mp h
    obtain ⟨mem, rfl⟩ := storeByte_mem hstore
    obtain ⟨mem', rfl⟩ := ih hrest
    exact ⟨mem', rfl⟩

/-- `memcpy` and `memset` write memory only. -/
theorem memmove_mem {n : Word} (h : memmove V cpu dst src n σ = .ok σ') :
    ∃ mem, σ' = { σ with mem := mem } := by
  unfold memmove at h
  split at h
  · exact memmoveDown_mem h
  · exact memmoveUp_mem h

/-- No action changes the environment table or `cr3`. -/
theorem LoadAction.exec_frame {a : LoadAction} (h : a.exec V B cpu e σ = .ok σ') :
    SameTable σ σ' ∧ (σ'.cpus cpu).cr3 = (σ.cpus cpu).cr3 := by
  -- the two that copy and clear write memory only
  have hmem (hσ : ∃ mem, σ' = { σ with mem := mem }) :
      SameTable σ σ' ∧ (σ'.cpus cpu).cr3 = (σ.cpus cpu).cr3 := by
    obtain ⟨mem, rfl⟩ := hσ
    exact ⟨⟨rfl, rfl, fun _ => rfl⟩, rfl⟩
  cases a with
  | region va len => exact regionAllocLoop_frame h
  | copy dst src n => exact hmem (memmove_mem h)
  | clear dst n => exact hmem (storeBytes_mem h)

/-- When the free pages are used up, they stay so. -/
theorem LoadAction.exec_none {a : LoadAction} (h : a.exec V B cpu e σ = .ok σ')
    (hnone : σ.pageFreeList = none) : σ'.pageFreeList = none := by
  cases a with
  | region va len => rw [(regionAllocLoop_none hnone h).2, hnone]
  | copy dst src n =>
    obtain ⟨mem, rfl⟩ := memmove_mem h
    exact hnone
  | clear dst n =>
    obtain ⟨mem, rfl⟩ := storeBytes_mem h
    exact hnone

theorem LoadAction.execAll_none (h : execAll V B cpu e as σ = .ok σ')
    (hnone : σ.pageFreeList = none) : σ'.pageFreeList = none := by
  induction as generalizing σ with
  | nil => rwa [← Except.ok.inj h]
  | cons a as ih =>
    rw [execAll, List.foldlM_cons] at h
    obtain ⟨σ₁, hfirst, hrest⟩ := bind_eq_ok.mp h
    exact ih hrest (exec_none hfirst hnone)

theorem LoadAction.execAll_table (h : execAll V B cpu e as σ = .ok σ') : SameTable σ σ' :=
  foldlM_table (fun _ _ _ hrun => (exec_frame hrun).1) h

/-! ### The pages of the new environment -/

/-- Nothing but `e` refers to the pages of `e`. -/
structure Owned (B : Boot) (e : Fin nenv) (σ : State) : Prop where
  live : Live σ e
  dir : dirFrame B σ (some e) = some (frameAt (σ.envs e).envPgdir)
  separated : Separated B σ
  sole : ∀ s p, s.owner = some e → slotRef B σ s = some p → ∀ s', slotRef B σ s' = some p → s' = s

namespace Owned

theorem of_slots (h : Owned B e σ) (hslots : slots B σ' = slots B σ) (hk : Keeps B σ σ') :
    Owned B e σ' where
  live := by
    rw [Live, hk.envs]
    exact h.live
  dir := by rw [hk.dirFrame, hk.envs, h.dir]
  separated := ⟨by rw [slotRef_eq_of_slots hslots]; exact h.separated.managed,
    by rw [slotRef_eq_of_slots hslots]; exact h.separated.unique⟩
  sole := by
    rw [slotRef_eq_of_slots hslots]
    exact h.sole

theorem not_foreign (h : Owned B e σ) {s : Slot} {p : ℕ} (hs : s.owner = some e)
    (href : slotRef B σ s = some p) : ¬Foreign B e σ p := by
  rintro (hm | ⟨s', hs', href'⟩)
  · exact hm (h.separated.managed s p href)
  · rw [h.sole s p hs href s' href'] at hs'
    exact hs' hs

/-- A byte that has been written below `UTOP` is on a page of `e`. -/
theorem storeByte (h : Owned B e σ) (hcr3 : InCr3 cpu e σ) (hva : va < utop) {v : Byte}
    (hrun : storeByte cpu va v σ = .ok σ') :
    slots B σ' = slots B σ ∧ Keeps B σ σ' ∧ Apart B e σ σ' := by
  unfold Jos.storeByte at hrun
  split at hrun
  · next f haccess =>
    obtain rfl := Except.ok.inj hrun
    -- the address is translated through the directory of `e`, so the page is one of its pages
    obtain ⟨π₁, π₂, hwalk, -⟩ := (kernelAccess_eq_some (lt_kernbase_of_lt_utop hva)).mp haccess
    rw [hcr3] at hwalk
    obtain ⟨t, ht, hp⟩ := x86Walk_eq_some.mp hwalk
    have href : slotRef B σ (.pte (some e) (pdx va) (ptx va)) = some f := by
      rw [slotRef, slots_pte h.dir ((lt_utop_iff va).mp hva) ht, hp]
      rfl
    obtain ⟨hslots, hkeeps⟩ : slots B (σ.setByte f (pgoff va) v) = slots B σ ∧
        Keeps B σ (σ.setByte f (pgoff va) v) := h.separated.setFrame_mapped href _
    refine ⟨hslots, hkeeps, .of_keeps hkeeps (fun s _ => by rw [hslots]) fun g hg => ?_⟩
    refine setWord_mem_of_ne ?_ _ _
    -- a frame that is not a page of `e` is another one
    rintro rfl
    exact h.not_foreign rfl href hg
  · cases hrun

end Owned

theorem LoadInv.owned (h : LoadInv B e O c efree σ free M) : Owned B e σ where
  live := h.live
  dir := h.dir
  separated := h.page.separated
  sole _ _ hs href _ href' := h.loaded.slot_unique hs href href'

/-- What holds between two actions of `load_icode` that are below `UTOP`, since the state `σ₀`:
the pages of `e` are its own and nothing else has been touched. Once there is no free page, one of
them may have been lost. -/
structure Underway (B : Boot) (cpu : ℕ) (e : Fin nenv) (O : Set ℕ) (c : ℕ) (efree : List (Fin nenv))
    (σ₀ σ : State) : Prop where
  owned : Owned B e σ
  cr3 : InCr3 cpu e σ
  apart : Apart B e σ₀ σ
  pages : σ.pageFreeList = none ∨ ∃ free M, LoadInv B e O c efree σ free M

namespace Underway

theorem storeByte (h : Underway B cpu e O c efree σ₀ σ) (hva : va < utop) {v : Byte}
    (hrun : storeByte cpu va v σ = .ok σ') : Underway B cpu e O c efree σ₀ σ' := by
  obtain ⟨hslots, hkeeps, hapart⟩ := h.owned.storeByte h.cr3 hva hrun
  obtain ⟨mem, rfl⟩ := storeByte_mem hrun
  refine ⟨h.owned.of_slots hslots hkeeps, h.cr3, h.apart.trans hapart, h.pages.imp_right ?_⟩
  rintro ⟨free, M, hinv⟩
  exact ⟨free, M, hinv.of_slots hslots hkeeps rfl rfl⟩

theorem storeBytes {bs : List Byte} (h : Underway B cpu e O c efree σ₀ σ)
    (hva : bs ≠ [] → va.toNat + bs.length ≤ utop.toNat)
    (hrun : storeBytes cpu bs va σ = .ok σ') : Underway B cpu e O c efree σ₀ σ' := by
  induction bs generalizing σ va with
  | nil =>
    obtain rfl := Except.ok.inj hrun
    exact h
  | cons v bs ih =>
    obtain ⟨σ₁, hstore, hrest⟩ := bind_eq_ok.mp hrun
    have hend := hva (List.cons_ne_nil v bs)
    rw [List.length_cons] at hend
    -- each byte is below `UTOP`, so the address does not wrap
    have hlt : va < utop := by
      rw [BitVec.lt_def]
      omega
    have hnext := toNat_succ_of_lt_utop hlt
    exact ih (h.storeByte hlt hstore) (fun _ => by omega) hrest

theorem memmoveUp (h : Underway B cpu e O c efree σ₀ σ)
    (hdst : n ≠ 0 → dst.toNat + n ≤ utop.toNat) (hrun : memmoveUp V cpu n dst src σ = .ok σ') :
    Underway B cpu e O c efree σ₀ σ' := by
  induction n generalizing σ dst src with
  | zero =>
    obtain rfl := Except.ok.inj hrun
    exact h
  | succ n ih =>
    obtain ⟨b, -, hrun⟩ := bind_eq_ok.mp hrun
    obtain ⟨σ₁, hstore, hrest⟩ := bind_eq_ok.mp hrun
    have hend := hdst (Nat.succ_ne_zero n)
    have hlt : dst < utop := by
      rw [BitVec.lt_def]
      omega
    have hnext := toNat_succ_of_lt_utop hlt
    exact ih (h.storeByte hlt hstore) (fun _ => by omega) hrest

theorem memmoveDown (h : Underway B cpu e O c efree σ₀ σ)
    (hdst : n ≠ 0 → dst.toNat + n ≤ utop.toNat) (hrun : memmoveDown V cpu n dst src σ = .ok σ') :
    Underway B cpu e O c efree σ₀ σ' := by
  induction n generalizing σ with
  | zero =>
    obtain rfl := Except.ok.inj hrun
    exact h
  | succ n ih =>
    obtain ⟨b, -, hrun⟩ := bind_eq_ok.mp hrun
    obtain ⟨σ₁, hstore, hrest⟩ := bind_eq_ok.mp hrun
    have hend := hdst (Nat.succ_ne_zero n)
    have htop : utop.toNat < 2 ^ 32 := utop.isLt
    -- the last of the bytes that are left is below `UTOP`
    have hlt : dst + BitVec.ofNat 32 n < utop := by
      rw [BitVec.lt_def, BitVec.toNat_add, BitVec.toNat_ofNat]
      omega
    exact ih (h.storeByte hlt hstore) (fun _ => by omega) hrest

/-- One page of `region_alloc`, which may be lost. -/
theorem mapPage (h : Underway B cpu e O c efree σ₀ σ) (hva : va < utop)
    (hrun : Jos.regionAllocLoop B cpu e 1 va σ = .ok σ') : Underway B cpu e O c efree σ₀ σ' := by
  obtain ⟨hsame, hcr3⟩ := regionAllocLoop_frame hrun
  have hcr3' : InCr3 cpu e σ' := by
    rw [InCr3, hcr3, hsame.envs]
    exact h.cr3
  -- without a free page `region_alloc` does not return
  obtain hnone | ⟨free, M, hinv⟩ := h.pages
  · exact absurd (regionAllocLoop_none hnone hrun).1 Nat.one_ne_zero
  · have hapart := h.apart.trans (hinv.mapPage_apart hva hrun)
    -- no page at all; the page is mapped; or `page_insert` has no page for the table
    obtain ⟨-, hfail⟩ | ⟨σ₁, free₁, hstep, h₁⟩ | ⟨p, σ₁, -, -, hstep, hnone, hslots, hkeeps⟩ :=
      hinv.allocPage hva cpu 0
    · rw [hfail] at hrun
      cases hrun
    · obtain rfl := Except.ok.inj (hstep.symm.trans hrun)
      exact ⟨h₁.owned, hcr3', hapart, .inr ⟨free₁, _, h₁⟩⟩
    · obtain rfl := Except.ok.inj (hstep.symm.trans hrun)
      exact ⟨h.owned.of_slots hslots hkeeps, hcr3', hapart, .inl hnone⟩

theorem regionAllocLoop (h : Underway B cpu e O c efree σ₀ σ)
    (hva : n ≠ 0 → va.toNat + n * 4096 ≤ utop.toNat)
    (hrun : Jos.regionAllocLoop B cpu e n va σ = .ok σ') : Underway B cpu e O c efree σ₀ σ' := by
  induction n generalizing σ va with
  | zero =>
    obtain rfl := Except.ok.inj hrun
    exact h
  | succ n ih =>
    have hend := hva (Nat.succ_ne_zero n)
    have hlt : va < utop := by
      rw [BitVec.lt_def]
      omega
    obtain ⟨σ₁, hfirst, hrest⟩ := ImageInv.regionAllocLoop_succ.mp hrun
    have hnext := (pgnum_succ_of_lt_utop hlt).1
    exact ih (h.mapPage hlt hfirst) (fun _ => by omega) hrest

/-- An action below `UTOP`. -/
theorem exec {a : LoadAction} (h : Underway B cpu e O c efree σ₀ σ) (hbelow : a.Below)
    (hrun : a.exec V B cpu e σ = .ok σ') : Underway B cpu e O c efree σ₀ σ' := by
  cases a with
  | region va len => exact h.regionAllocLoop hbelow hrun
  | copy dst src n =>
    -- an action of no bytes may begin anywhere
    have hdst (hn : n.toNat ≠ 0) : dst.toNat + n.toNat ≤ utop.toNat :=
      hbelow (Proghdr.ne_zero_iff.mpr hn)
    change memmove V cpu dst src n σ = .ok σ' at hrun
    unfold memmove at hrun
    split at hrun
    · exact h.memmoveDown hdst hrun
    · exact h.memmoveUp hdst hrun
  | clear dst n =>
    refine h.storeBytes (fun hne => ?_) hrun
    rw [List.length_replicate]
    refine hbelow fun hn => hne ?_
    rw [hn]
    rfl

end Underway

end Jos
