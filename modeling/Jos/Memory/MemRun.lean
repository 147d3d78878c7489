import Jos.Library.Run
import Jos.Memory.BootState

/-!
# Runs of the memory operations

The operations of `kern/pmap.c` and `kern/env.c` that hand pages around, as the
labels of a transition relation, and the invariant of its runs.

* `MemOp.exec` is what an operation does; its result codes are dropped, and a
  `panic` is not a step.
* `MemOp.Allowed` is what its callers promise: environments are live, user
  addresses are below `UTOP`, permissions are twelve bits, and the page handed to
  `page_insert` is allocated and no table.
* `MemStep` also keeps every page at no more than 65535 references, the capacity
  of `pp_ref`.

`MemInv` adds the environment table and the empty lower half of `kern_pgdir` to
the page invariant; `MemStep.inv` says that every step keeps it, one case per
operation. The kernel's own directory takes part through `kernWalk`, the way
`boot_map_region` gets its page tables.
-/

namespace Jos

variable {B : Boot} {σ σ' : State} {free : List ℕ} {efree : List (Fin nenv)}

/-- The global page invariant: the free list and the counters are right with no
reference in hand, and the counters have not overflowed. -/
structure GlobalInv (B : Boot) (σ : State) (free : List ℕ) : Prop where
  page : PageInv B σ 0 free
  bound : ∀ p, refs B σ p ≤ 65535

/-- The global invariant with the environment table. -/
structure MemInv (B : Boot) (σ : State) (free : List ℕ) (efree : List (Fin nenv)) : Prop
    extends GlobalInv B σ free where
  env : EnvInv σ efree
  low : KernLow B σ
  /-- The kernel's directory refers to itself at `UVPT`. -/
  self : σ.mem B.kernFrame (pdx uvpt) = (B.kernPgdir - kernbase) ||| pteU ||| pteP

/-- Following the links from `page_free_list` reaches page `p`. -/
def OnFreeList (σ : State) (p : ℕ) : Prop :=
  ∃ l, Chain σ.link σ.pageFreeList l ∧ p ∈ l

/-- Page `p` was handed out by `page_alloc` and has not been freed since. -/
def Allocated (B : Boot) (σ : State) (p : ℕ) : Prop := B.Managed p ∧ ¬OnFreeList σ p

/-- Page `p` is a page table or a page directory. -/
def IsTablePage (B : Boot) (σ : State) (p : ℕ) : Prop :=
  ∃ s : Slot, s.IsTable ∧ slotRef B σ s = some p

/-- From `σ` to `σ'` only the slots of the space `a` were written, with pages that it
had, that were free, or that are in `Q`; and only pages that it had or that are in
`Q` were freed. Nothing was written at or above `UTOP`, unless the space is the
kernel's. -/
structure LocalTo (B : Boot) (a : Space) (Q : Set ℕ) (σ : State) (free : List ℕ) (σ' : State)
    (free' : List ℕ) : Prop where
  other : ∀ s, s.owner ≠ a → slots B σ' s = slots B σ s
  own : ∀ s p, slotRef B σ' s = some p → slotRef B σ s = some p ∨ p ∈ free ∨ p ∈ Q
  freed : ∀ p ∈ free', p ∈ free ∨ p ∈ Q ∨ ∃ s, s.owner = a ∧ slotRef B σ s = some p
  keeps : a ≠ none → Keeps B σ σ'

theorem PageInv.onFreeList_iff {held : ℕ → ℕ} (h : PageInv B σ held free) (p : ℕ) :
    OnFreeList σ p ↔ p ∈ free := by
  constructor
  · rintro ⟨l, hl, hp⟩
    rwa [h.chain.unique hl]
  · exact fun hp => ⟨free, h.chain, hp⟩

/-- The counter of a managed page is the number of its references. -/
theorem GlobalInv.ref_eq (h : GlobalInv B σ free) {p : ℕ} (hm : B.Managed p) :
    (σ.ref p).toNat = refs B σ p := by
  have hc := h.page.count p hm
  have hb := h.bound p
  rw [Pi.zero_apply, add_zero] at hc
  rw [hc, BitVec.toNat_ofNat]
  exact Nat.mod_eq_of_lt (by unfold refs at hb; omega)

theorem GlobalInv.bound_held (h : GlobalInv B σ free) (p : ℕ) :
    refs B σ p + (0 : ℕ → ℕ) p ≤ 65535 := by
  rw [Pi.zero_apply, add_zero]
  exact h.bound p

theorem EnvInv.congr (h : EnvInv σ efree) (he : σ'.envs = σ.envs)
    (hfl : σ'.envFreeList = σ.envFreeList) : EnvInv σ' efree where
  chain := by
    rw [he, hfl]
    exact h.chain
  free_iff := by
    rw [he]
    exact h.free_iff
  pgdir := by
    rw [he]
    exact h.pgdir

theorem kernLow_iff :
    KernLow B σ ↔ ∀ i : Fin 1024, i.val < 955 → slots B σ (.pde none i) = none := by
  refine forall_congr' fun i => forall_congr' fun hi => ?_
  rw [slots_pde rfl (tracked_of_lt hi none)]

theorem EnvInv.dirFrame_live (h : EnvInv σ efree) {e : Fin nenv} (he : Live σ e) :
    dirFrame B σ (some e) = some (frameAt (σ.envs e).envPgdir) :=
  Jos.dirFrame_live he (h.pgdir e he)

/-! ### Operations -/

/-- The operations that hand pages around. -/
inductive MemOp where
  | pageAlloc (flags : Word)
  | pageFree (pp : ℕ)
  | envAlloc (parentId : Word)
  | envFree (cpu : ℕ) (e : Fin nenv)
  | pageInsert (cpu : ℕ) (e : Fin nenv) (pp : ℕ) (va perm : Word)
  | pageRemove (cpu : ℕ) (e : Fin nenv) (va : Word)
  | pgdirWalk (e : Fin nenv) (va : Word)
  | kernWalk (va : Word)

/-- What an operation does to the state. -/
def MemOp.exec (B : Boot) (σ : State) : MemOp → Except Panic State
  | .pageAlloc flags => (Jos.pageAlloc B flags σ).map Prod.snd
  | .pageFree pp => Jos.pageFree pp σ
  | .envAlloc parentId => (Jos.envAlloc B parentId σ).map fun r => r.2.2
  | .envFree cpu e => Jos.envFree B cpu e σ
  | .pageInsert cpu e pp va perm =>
    (Jos.pageInsert B cpu (σ.envs e).envPgdir pp va perm σ).map Prod.snd
  | .pageRemove cpu e va => Jos.pageRemove B cpu (σ.envs e).envPgdir va σ
  | .pgdirWalk e va => (Jos.pgdirWalk B (σ.envs e).envPgdir va true σ).map Prod.snd
  | .kernWalk va => (Jos.pgdirWalk B B.kernPgdir va true σ).map Prod.snd

/-- What the caller of an operation promises. -/
def MemOp.Allowed (B : Boot) (σ : State) : MemOp → Prop
  | .pageAlloc _ => True
  | .pageFree pp => Allocated B σ pp ∧ refs B σ pp = 0
  | .envAlloc _ => True
  | .envFree _ e => Live σ e
  | .pageInsert _ e pp va perm =>
    Live σ e ∧ va < utop ∧ perm.toNat < 4096 ∧ Allocated B σ pp ∧ ¬IsTablePage B σ pp
  | .pageRemove _ e va => Live σ e ∧ va < utop
  | .pgdirWalk e va => Live σ e ∧ va < utop
  | .kernWalk va => utop ≤ va ∧ pdx va ≠ pdx uvpt

/-- One operation that its caller may do and that returns. -/
structure MemStep (B : Boot) (σ : State) (op : MemOp) (σ' : State) : Prop where
  allowed : op.Allowed B σ
  exec : op.exec B σ = .ok σ'
  bound : ∀ p, refs B σ' p ≤ 65535

theorem map_eq_ok {α β : Type} {x : Except Panic α} {f : α → β} {b : β} :
    x.map f = .ok b ↔ ∃ a, x = .ok a ∧ f a = b := by
  cases x with
  | error e => simp [Except.map]
  | ok a => simp [Except.map]

/-- The state of a result that is known. -/
theorem map_snd_ok {α : Type} {x : Except Panic (α × State)} {r : α} (hx : x = .ok (r, σ))
    (h : x.map Prod.snd = .ok σ') : σ' = σ := by
  rw [hx] at h
  exact (Except.ok.inj h).symm

/-- `env_alloc` counts its page once, so no counter passes its capacity. -/
theorem EnvAllocated.bound {p : ℕ} {parentId : Word} (h : GlobalInv B σ (p :: free))
    (he : (σ.envs e).envStatus = .free) (hal : EnvAllocated B parentId e p σ σ') (q : ℕ) :
    refs B σ' q ≤ 65535 := by
  have hnone : slotRef B σ (.dir e) = none := by rw [slotRef_dir, dirFrame_free he]
  have hcount : refs B σ' q = refs B σ q + if p = q then 1 else 0 := by
    rw [refs, slotRef_update hal.slots]
    exact refCount_update_some hnone p q
  have hb := h.bound q
  rw [hcount]
  split
  · next hpq =>
    -- the page was free, so the slot is its first reference
    have h0 := h.page.free_unref p List.mem_cons_self
    rw [Pi.zero_apply, add_zero, hpq] at h0
    unfold refs
    omega
  · omega

/-- The environment that `env_alloc` returns is in use. -/
theorem EnvAllocated.live {p : ℕ} {parentId : Word} {e : Fin nenv}
    (hal : EnvAllocated B parentId e p σ σ') : Live σ' e := by
  rw [Live, hal.envs, Function.update_self]
  simp [initEnv]

namespace LocalTo

variable {a : Space} {Q : Set ℕ} {free' : List ℕ}

/-- A step that writes no slot. -/
theorem of_slots (h : slots B σ' = slots B σ) (hf : ∀ p ∈ free', p ∈ free ∨ p ∈ Q)
    (hk : Keeps B σ σ') : LocalTo B a Q σ free σ' free' where
  other s _ := by rw [h]
  own s p hs := Or.inl (by rwa [slotRef_eq_of_slots h] at hs)
  freed p hp := (hf p hp).imp_right Or.inl
  keeps _ := hk

/-- A step that writes one slot of the space. -/
theorem of_update {s : Slot} {v : Option (ℕ × BitVec 12)} (ho : s.owner = a)
    (h : slots B σ' = Function.update (slots B σ) s v)
    (hv : ∀ p π, v = some (p, π) → p ∈ free ∨ p ∈ Q)
    (hf : ∀ p ∈ free', p ∈ free ∨ p ∈ Q ∨ slotRef B σ s = some p) (hk : a ≠ none → Keeps B σ σ') :
    LocalTo B a Q σ free σ' free' where
  other s' hs' := by
    rw [h, Function.update_of_ne]
    rintro rfl
    exact hs' ho
  own s' p hs' := by
    rw [slotRef_update h] at hs'
    -- only `s` can have got a new page
    by_cases hss : s' = s
    · rw [hss, Function.update_self, Option.map_eq_some_iff] at hs'
      obtain ⟨⟨q, π⟩, hq, rfl⟩ := hs'
      exact Or.inr (hv q π hq)
    · rw [Function.update_of_ne hss] at hs'
      exact Or.inl hs'
  freed p hp := by
    rcases hf p hp with h1 | h1 | h1
    · exact Or.inl h1
    · exact Or.inr (Or.inl h1)
    · exact Or.inr (Or.inr ⟨s, ho, h1⟩)
  keeps := hk

end LocalTo

/-- Emptying a slot frees nothing but its page. -/
theorem mem_freeAfterClear {held : ℕ → ℕ} {s : Slot} {p : ℕ}
    (h : p ∈ freeAfterClear B σ held s free) : p ∈ free ∨ slotRef B σ s = some p := by
  unfold freeAfterClear at h
  cases hs : slots B σ s with
  | none =>
    rw [hs] at h
    exact Or.inl h
  | some u =>
    rw [hs] at h
    simp only at h
    split at h
    · rcases List.mem_cons.mp h with rfl | h
      · right
        rw [slotRef, hs]
        rfl
      · exact Or.inl h
    · exact Or.inl h

/-- Writing a slot frees no more than emptying it. -/
theorem mem_freeAfterInsert {held : ℕ → ℕ} {pp : ℕ} {s : Slot} {p : ℕ}
    (h : p ∈ freeAfterInsert B σ held pp s free) : p ∈ free ∨ slotRef B σ s = some p := by
  -- inserting frees at most what clearing the slot would free
  have hclear : p ∈ freeAfterClear B σ held s free := by
    unfold freeAfterInsert at h
    unfold freeAfterClear
    cases hs : slots B σ s with
    | none =>
      rw [hs] at h
      exact h
    | some u =>
      obtain ⟨q, π⟩ := u
      rw [hs] at h
      simp only at h ⊢
      by_cases hlast : refs B σ q + held q = 1
      · rw [if_pos hlast]
        split at h
        · exact h
        · exact List.mem_cons_of_mem _ h
      · rw [if_neg fun hc => hlast hc.2] at h
        rw [if_neg hlast]
        exact h
  exact mem_freeAfterClear hclear

namespace MemInv

/-- A step that leaves the table and the kernel's lower half alone. -/
theorem of_keeps {free' : List ℕ} (h : MemInv B σ free efree) (hp : PageInv B σ' 0 free')
    (hk : Keeps B σ σ') (hb : ∀ p, refs B σ' p ≤ 65535)
    (hlow : ∀ i : Fin 1024, slots B σ' (.pde none i) = slots B σ (.pde none i)) :
    MemInv B σ' free' efree where
  page := hp
  bound := hb
  env := h.env.congr hk.envs hk.envFreeList
  low := kernLow_iff.mpr fun i hi => by
    rw [hlow i]
    exact kernLow_iff.mp h.low i hi
  self := by
    rw [hk.upper none B.kernFrame rfl (pdx uvpt) (by decide)]
    exact h.self

theorem pageAlloc (h : MemInv B σ free efree) (flags : Word) :
    ∃ r σ', Jos.pageAlloc B flags σ = .ok (r, σ') ∧
      ((∀ p, refs B σ' p ≤ 65535) → ∃ free', MemInv B σ' free' efree ∧
        ∀ a, LocalTo B a ∅ σ free σ' free') := by
  cases free with
  | nil =>
    exact ⟨none, σ, pageAlloc_nil h.page flags, fun _ => ⟨[], h, fun _ => .of_slots rfl
      (fun _ hp => Or.inl hp) (Keeps.refl B σ)⟩⟩
  | cons p free =>
    obtain ⟨σ', hrun, hinv, hslots, hkeeps, -⟩ := pageAlloc_spec h.page flags
    exact ⟨some p, σ', hrun, fun hb => ⟨free, h.of_keeps hinv hkeeps hb fun i => by rw [hslots],
      fun _ => .of_slots hslots (fun _ hq => Or.inl (List.mem_cons_of_mem _ hq)) hkeeps⟩⟩

theorem pageFree (h : MemInv B σ free efree) {pp : ℕ} (hpp : Allocated B σ pp)
    (h0 : refs B σ pp = 0) :
    ∃ σ', Jos.pageFree pp σ = .ok σ' ∧
      ((∀ p, refs B σ' p ≤ 65535) → ∃ free', MemInv B σ' free' efree ∧
        ∀ a, LocalTo B a {pp} σ free σ' free') := by
  have hfree : pp ∉ free := fun hc => hpp.2 ((h.page.onFreeList_iff pp).mpr hc)
  obtain ⟨σ', hrun, hinv, hsame⟩ := pageFree_spec h.page hpp.1 hfree (by rw [h0]; rfl)
  refine ⟨σ', hrun, fun hb => ⟨pp :: free, h.of_keeps hinv hsame.keeps hb fun i => by
    rw [hsame.slots], fun _ => .of_slots hsame.slots (fun q hq => ?_) hsame.keeps⟩⟩
  exact (List.mem_cons.mp hq).symm

/-- What a successful `env_alloc` keeps. -/
theorem of_envAllocated {p : ℕ} {e : Fin nenv} {rest : List (Fin nenv)} {parentId : Word}
    (h : MemInv B σ (p :: free) (e :: rest)) (hinv : PageInv B σ' 0 free) (henv : EnvInv σ' rest)
    (hlow : KernLow B σ') (hal : EnvAllocated B parentId e p σ σ') : MemInv B σ' free rest where
  page := hinv
  bound := hal.bound h.toGlobalInv ((h.env.free_iff e).mp List.mem_cons_self)
  env := henv
  low := hlow
  self := by
    have hm : B.Managed p := h.page.free_managed p List.mem_cons_self
    rw [hal.other _ hm.ne_kernFrame.symm]
    exact h.self

theorem envAlloc (h : MemInv B σ free efree) {parentId : Word} {r : ℤ} {ne : Option (Fin nenv)}
    (hrun : Jos.envAlloc B parentId σ = .ok (r, ne, σ')) :
    ∃ free' efree', MemInv B σ' free' efree' := by
  obtain ⟨-, -, -, rfl⟩ | ⟨-, -, -, rfl⟩ |
    ⟨e, rest, p, free', rfl, rfl, -, -, hinv, henv, hlow, hal⟩ :=
    envAlloc_ok h.page h.env h.low hrun
  · exact ⟨free, efree, h⟩
  · exact ⟨free, efree, h⟩
  · exact ⟨free', rest, h.of_envAllocated hinv henv hlow hal⟩

/-- A successful `env_alloc`. -/
theorem envAlloc_zero (h : MemInv B σ free efree) {parentId : Word} {e : Fin nenv}
    (hrun : Jos.envAlloc B parentId σ = .ok (0, some e, σ')) :
    ∃ rest p free', efree = e :: rest ∧ free = p :: free' ∧ MemInv B σ' free' rest ∧
      EnvAllocated B parentId e p σ σ' := by
  obtain ⟨-, hr, -, -⟩ | ⟨-, hr, -, -⟩ |
    ⟨e', rest, p, free', rfl, rfl, -, he, hinv, henv, hlow, hal⟩ :=
    envAlloc_ok h.page h.env h.low hrun
  · exact absurd hr (by decide)
  · exact absurd hr (by decide)
  · obtain rfl := Option.some.inj he
    exact ⟨rest, p, free', rfl, rfl, h.of_envAllocated hinv henv hlow hal, hal⟩

/-- With a free slot and a free page `env_alloc` succeeds on a machine with no more
than 256 MB. -/
theorem envAlloc_succeeds {p : ℕ} {e : Fin nenv} {rest : List (Fin nenv)}
    (h : MemInv B σ (p :: free) (e :: rest)) (hsmall : B.npages ≤ 65536) (parentId : Word) :
    ∃ σ', Jos.envAlloc B parentId σ = .ok (0, some e, σ') ∧ MemInv B σ' free rest ∧
      EnvAllocated B parentId e p σ σ' := by
  obtain ⟨r, ne, σ', hrun⟩ := envAlloc_returns h.page h.env hsmall parentId
  obtain ⟨hc, -⟩ | ⟨hc, -⟩ |
    ⟨e', rest', p', free', he, hp, rfl, rfl, hinv, henv, hlow, hal⟩ :=
    envAlloc_ok h.page h.env h.low hrun
  · cases hc
  · cases hc
  · obtain ⟨rfl, rfl⟩ := List.cons.inj he
    obtain ⟨rfl, rfl⟩ := List.cons.inj hp
    exact ⟨σ', hrun, h.of_envAllocated hinv henv hlow hal, hal⟩

theorem envFree (h : MemInv B σ free efree) (cpu : ℕ) {e : Fin nenv} (he : Live σ e) :
    ∃ σ' free', Jos.envFree B cpu e σ = .ok σ' ∧ EnvFreed B 0 e σ free σ' free' ∧
      ((∀ p, refs B σ' p ≤ 65535) → MemInv B σ' free' (e :: efree)) := by
  obtain ⟨σ', free', hrun, hfreed, henv⟩ := envFree_spec h.page h.env he h.bound_held cpu
  refine ⟨σ', free', hrun, hfreed, fun hb =>
    ⟨⟨hfreed.clears.inv, hb⟩, henv, kernLow_iff.mpr ?_, ?_⟩⟩
  · -- the kernel's slots are not the environment's
    intro i hi
    rw [hfreed.clears.kept (.pde none i) (fun hc => by cases hc)]
    exact kernLow_iff.mp h.low i hi
  · rw [hfreed.upper none B.kernFrame rfl (pdx uvpt) (by decide)]
    exact h.self

theorem pageInsert (h : MemInv B σ free efree) (cpu : ℕ) {pp : ℕ} {e : Fin nenv} {va perm : Word}
    (he : Live σ e) (hva : va < utop) (hperm : perm.toNat < 4096) (hpp : Allocated B σ pp)
    (htab : ¬IsTablePage B σ pp) :
    ∃ r σ', Jos.pageInsert B cpu (σ.envs e).envPgdir pp va perm σ = .ok (r, σ') ∧
      ((∀ p, refs B σ' p ≤ 65535) → ∃ free', MemInv B σ' free' efree ∧
        LocalTo B (some e) {pp} σ free σ' free') := by
  have hd := h.env.dirFrame_live (B := B) he
  have hi := (lt_utop_iff va).mp hva
  have hfree : pp ∉ free := fun hc => hpp.2 ((h.page.onFreeList_iff pp).mpr hc)
  have hnt : ∀ s : Slot, s.IsTable → slotRef B σ s ≠ some pp := fun s hs hc => htab ⟨s, hs, hc⟩
  -- the page table of `va` is there, cannot be had, or is the first free page
  cases ht : entryOf (σ.mem (frameAt (σ.envs e).envPgdir) (pdx va)) with
  | some t =>
    obtain ⟨σ', hrun, hslots, hkeeps, hinv⟩ :=
      pageInsert_present h.page hd hi ht hpp.1 hfree hperm h.bound_held cpu
    refine ⟨0, σ', hrun, fun hb => ⟨_, h.of_keeps (hinv hnt) hkeeps hb ?_,
      .of_update rfl hslots ?_ ?_ fun _ => hkeeps⟩⟩
    · intro i
      rw [hslots, Function.update_of_ne (by simp)]
    · intro p π hp
      exact Or.inr (Prod.mk.inj (Option.some.inj hp)).1.symm
    · exact fun p hp => (mem_freeAfterInsert hp).imp_right Or.inr
  | none =>
    cases free with
    | nil =>
      exact ⟨_, σ, pageInsert_full h.page ht cpu pp perm, fun _ => ⟨[], h,
        .of_slots rfl (fun _ hp => Or.inl hp) (Keeps.refl B σ)⟩⟩
    | cons t free =>
      obtain ⟨σ', hrun, hslots, hkeeps, hinv⟩ :=
        pageInsert_alloc h.page hd hi ht hpp.1 hfree hperm h.bound_held cpu
      refine ⟨0, σ', hrun, fun hb => ⟨_, h.of_keeps (hinv hnt) hkeeps hb ?_, ?_⟩⟩
      · intro i
        rw [hslots, Function.update_of_ne (by simp), Function.update_of_ne (by simp)]
      · refine ⟨?_, ?_, fun p hp => Or.inl (List.mem_cons_of_mem _ hp),
          fun _ => hkeeps⟩
        · intro s hs
          rw [hslots, Function.update_of_ne, Function.update_of_ne]
          · rintro rfl
            exact hs rfl
          · rintro rfl
            exact hs rfl
        · -- the slot is the new mapping, the new page table, or an old one
          intro s p hs
          rw [slotRef, hslots] at hs
          by_cases hpte : s = .pte (some e) (pdx va) (ptx va)
          · rw [hpte, Function.update_self] at hs
            exact Or.inr (Or.inr (Option.some.inj hs).symm)
          · rw [Function.update_of_ne hpte] at hs
            by_cases hpde : s = .pde (some e) (pdx va)
            · rw [hpde, Function.update_self] at hs
              exact Or.inr (Or.inl (by rw [← Option.some.inj hs]; exact List.mem_cons_self))
            · rw [Function.update_of_ne hpde] at hs
              exact Or.inl hs

theorem pageRemove (h : MemInv B σ free efree) (cpu : ℕ) {e : Fin nenv} {va : Word}
    (he : Live σ e) (hva : va < utop) :
    ∃ σ', Jos.pageRemove B cpu (σ.envs e).envPgdir va σ = .ok σ' ∧
      ((∀ p, refs B σ' p ≤ 65535) → ∃ free', MemInv B σ' free' efree ∧
        LocalTo B (some e) ∅ σ free σ' free') := by
  obtain ⟨σ', hrun, hslots, hinv, hkeeps⟩ := pageRemove_spec h.page
    (h.env.dirFrame_live he) ((lt_utop_iff va).mp hva)
    (fun p => (h.bound_held p).trans (by omega)) cpu
  refine ⟨σ', hrun, fun hb => ⟨_, h.of_keeps hinv hkeeps hb ?_,
    .of_update rfl hslots (fun p π hp => by cases hp)
      (fun p hp => (mem_freeAfterClear hp).imp_right Or.inr) fun _ => hkeeps⟩⟩
  intro i
  rw [hslots, Function.update_of_ne (by simp)]

/-- `pgdir_walk(create)` on any tracked directory entry that keeps the kernel's
lower half empty. -/
theorem walk (h : MemInv B σ free efree) {a : Space} {pgdir va : Word}
    (hd : dirFrame B σ a = some (frameAt pgdir)) (htr : Tracked a (pdx va))
    (hlow : a = none → 955 ≤ (pdx va).val) :
    ∃ r σ', Jos.pgdirWalk B pgdir va true σ = .ok (r, σ') ∧
      ((∀ p, refs B σ' p ≤ 65535) → ∃ free', MemInv B σ' free' efree ∧
        LocalTo B a ∅ σ free σ' free') := by
  cases ht : entryOf (σ.mem (frameAt pgdir) (pdx va)) with
  | some t =>
    obtain ⟨kva, hrun, -⟩ := pgdirWalk_present h.page hd htr ht true
    exact ⟨_, σ, hrun, fun _ => ⟨free, h, .of_slots rfl (fun _ hp => Or.inl hp) (Keeps.refl B σ)⟩⟩
  | none =>
    cases free with
    | nil =>
      exact ⟨none, σ, pgdirWalk_full h.page ht, fun _ => ⟨[], h, .of_slots rfl
        (fun _ hp => Or.inl hp) (Keeps.refl B σ)⟩⟩
    | cons t free =>
      obtain ⟨σ', kva, hrun, -, hinv, hslots, henvs, hefl, -, -, -, hother, hkeeps⟩ :=
        pgdirWalk_alloc h.page hd htr ht
      refine ⟨_, σ', hrun, fun hb =>
        ⟨free, ⟨⟨hinv, hb⟩, h.env.congr henvs hefl, kernLow_iff.mpr ?_, ?_⟩,
          .of_update rfl hslots ?_ (fun p hp => Or.inl (List.mem_cons_of_mem _ hp)) ?_⟩⟩
      · -- a walk of the kernel's directory writes above `UTOP` only
        intro i hi
        rw [hslots, Function.update_of_ne]
        · exact kernLow_iff.mp h.low i hi
        · rintro ⟨⟩
          exact absurd (hlow rfl) (by omega)
      · -- neither the new table nor the written entry is the kernel's `UVPT` slot
        have hm : B.Managed t := h.page.free_managed t List.mem_cons_self
        rw [hother _ _ hm.ne_kernFrame.symm, h.self]
        rintro hc
        obtain ⟨hframe, huvpt⟩ := Prod.mk.inj hc
        obtain rfl := h.page.separated.dirFrame_inj hd
          (show dirFrame B σ none = some (frameAt pgdir) by rw [← hframe]; rfl)
        exact htr huvpt.symm
      · intro p π hp
        left
        rw [← (Prod.mk.inj (Option.some.inj hp)).1]
        exact List.mem_cons_self
      · intro hne
        cases a with
        | none => exact absurd rfl hne
        | some e => exact hkeeps htr

end MemInv

/-- An operation that its caller may do returns and keeps the invariant, `env_alloc`
aside, which may `panic`. -/
theorem MemInv.exec {op : MemOp} (h : MemInv B σ free efree) (hal : op.Allowed B σ)
    (hne : ∀ parentId, op ≠ .envAlloc parentId) :
    ∃ σ', op.exec B σ = .ok σ' ∧
      ((∀ p, refs B σ' p ≤ 65535) → ∃ free' efree', MemInv B σ' free' efree') := by
  -- the page operations leave the table alone; what they are local to does not matter here
  have weaken {τ : State} {P : List ℕ → Prop}
      (hinv : (∀ p, refs B τ p ≤ 65535) → ∃ free', MemInv B τ free' efree ∧ P free')
      (hb : ∀ p, refs B τ p ≤ 65535) : ∃ free' efree', MemInv B τ free' efree' := by
    obtain ⟨free', h', -⟩ := hinv hb
    exact ⟨free', efree, h'⟩
  cases op with
  | pageAlloc flags =>
    obtain ⟨r, σ', hrun, hinv⟩ := h.pageAlloc flags
    exact ⟨σ', map_eq_ok.mpr ⟨(r, σ'), hrun, rfl⟩, weaken hinv⟩
  | pageFree pp =>
    obtain ⟨σ', hrun, hinv⟩ := h.pageFree hal.1 hal.2
    exact ⟨σ', hrun, weaken hinv⟩
  | envAlloc parentId => exact absurd rfl (hne parentId)
  | envFree cpu e =>
    obtain ⟨σ', free', hrun, -, hinv⟩ := h.envFree cpu hal
    exact ⟨σ', hrun, fun hb => ⟨free', e :: efree, hinv hb⟩⟩
  | pageInsert cpu e pp va perm =>
    obtain ⟨he, hva, hperm, hpp, htab⟩ := hal
    obtain ⟨r, σ', hrun, hinv⟩ := h.pageInsert cpu he hva hperm hpp htab
    exact ⟨σ', map_eq_ok.mpr ⟨(r, σ'), hrun, rfl⟩, weaken hinv⟩
  | pageRemove cpu e va =>
    obtain ⟨σ', hrun, hinv⟩ := h.pageRemove cpu hal.1 hal.2
    exact ⟨σ', hrun, weaken hinv⟩
  | pgdirWalk e va =>
    obtain ⟨r, σ', hrun, hinv⟩ := h.walk (h.env.dirFrame_live hal.1)
      (tracked_of_lt ((lt_utop_iff va).mp hal.2) _) (fun hc => by cases hc)
    exact ⟨σ', map_eq_ok.mpr ⟨(r, σ'), hrun, rfl⟩, weaken hinv⟩
  | kernWalk va =>
    have hge : 955 ≤ (pdx va).val := by
      by_contra hlt
      exact BitVec.not_lt.mpr hal.1 ((lt_utop_iff va).mpr (by omega))
    obtain ⟨r, σ', hrun, hinv⟩ := h.walk (a := none) rfl hal.2 fun _ => hge
    exact ⟨σ', map_eq_ok.mpr ⟨(r, σ'), hrun, rfl⟩, weaken hinv⟩

/-- Every step keeps the invariant. -/
theorem MemStep.inv {op : MemOp} (hs : MemStep B σ op σ') (h : MemInv B σ free efree) :
    ∃ free' efree', MemInv B σ' free' efree' := by
  -- `env_alloc` is inverted, since it may `panic`; everything else runs forwards
  by_cases hne : ∃ parentId, op = .envAlloc parentId
  · obtain ⟨parentId, rfl⟩ := hne
    obtain ⟨⟨r, ne, σ₁⟩, hrun, rfl⟩ := map_eq_ok.mp hs.exec
    exact h.envAlloc hrun
  · obtain ⟨σ₁, hrun, hinv⟩ := h.exec hs.allowed fun parentId hc => hne ⟨parentId, hc⟩
    obtain rfl := ok_unique hrun hs.exec
    exact hinv hs.bound

/-- Runs keep the invariant. -/
theorem MemInv.run {ops : List MemOp} (h : MemInv B σ free efree)
    (hrun : Run (MemStep B) σ ops σ') :
    ∃ free' efree', MemInv B σ' free' efree' :=
  hrun.invariant (P := fun τ => ∃ free' efree', MemInv B τ free' efree')
    (fun _ _ _ ⟨_, _, hi⟩ hs => hs.inv hi) ⟨free, efree, h⟩

/-! ### From boot on -/

variable {σ₀ : State}

/-- The state `page_init` and `env_init` leave. -/
def bootState (B : Boot) (σ₀ : State) : State := envInit (pageInit B σ₀)

theorem bootState_slots (h : Booted B σ₀) (s : Slot) : slots B (bootState B σ₀) s = none := by
  obtain ⟨-, -, -, hsame⟩ := pageInit_spec h
  have hin := envInit_inited (pageInit B σ₀)
  rw [← bootState] at hin
  have hmem : (bootState B σ₀).mem = (pageInit B σ₀).mem := hin.mem
  have hslots : slots B (bootState B σ₀) = slots B (pageInit B σ₀) := by
    refine slots_congr ?_ (fun _ _ _ _ _ => by rw [hmem])
      (fun _ _ _ _ _ _ _ => by rw [hmem])
    intro a
    cases a with
    | none => simp only [dirFrame]
    | some e =>
      -- no environment has a directory, before `env_init` and after it
      rw [dirFrame_free, dirFrame_free]
      · rw [hsame.envs, h.envs]
      · exact hin.status e
  rw [hslots, hsame.slots, h.slots_none s]

theorem bootState_refs (h : Booted B σ₀) (p : ℕ) : refs B (bootState B σ₀) p = 0 := by
  apply refCount_eq_zero.mpr
  intro s hs
  rw [slotRef, bootState_slots h] at hs
  cases hs

/-- The kernel boots into the invariant, with every page that is not reserved on the
free list. -/
theorem bootState_inv (h : Booted B σ₀) :
    ∃ free, MemInv B (bootState B σ₀) free (List.finRange nenv) ∧
      ∀ p, p ∈ free ↔ B.Managed p := by
  obtain ⟨free, hpage, hmem, hsame⟩ := pageInit_spec h
  have henv := envInit_spec (hsame.envFreeList.trans h.envFreeList)
  have hin := envInit_inited (pageInit B σ₀)
  have hslots : slots B (bootState B σ₀) = slots B (pageInit B σ₀) := by
    ext s
    rw [bootState_slots h, hsame.slots, h.slots_none s]
  refine ⟨free, ⟨⟨hpage.congr hin.pages hin.pageFreeList hslots, ?_⟩, henv, ?_, ?_⟩,
    hmem⟩
  · intro p
    rw [bootState_refs h]
    omega
  · exact kernLow_iff.mpr fun i _ => bootState_slots h _
  · rw [← bootState] at hin
    rw [hin.mem, hsame.mem, h.kernDir, Function.update_self]

/-- What the accounting of physical pages promises: `free` is the free list, and
`refs` counts the present entries below `UTOP` of all live environments, the
entries `pgdir_walk` has installed in `kern_pgdir`, and every `env_pgdir`. -/
structure PageAccounting (B : Boot) (σ : State) (free : List ℕ) : Prop where
  chain : Chain σ.link σ.pageFreeList free
  nodup : free.Nodup
  lt : ∀ p ∈ free, p < B.npages
  ref : ∀ p, ¬B.Reserved p → p < B.npages → (σ.ref p).toNat = refs B σ p
  free_ref : ∀ p ∈ free, σ.ref p = 0#16
  free_unref : ∀ p ∈ free, ∀ s, slotRef B σ s ≠ some p
  free_unreserved : ∀ p ∈ free, ¬B.Reserved p
  /-- Page tables and page directories are not shared. -/
  unshared : ∀ s s' p, s.IsTable → slotRef B σ s = some p → slotRef B σ s' = some p → s' = s

theorem GlobalInv.accounting (h : GlobalInv B σ free) : PageAccounting B σ free where
  chain := h.page.chain
  nodup := h.page.chain.nodup
  lt p hp := (h.page.free_managed p hp).1
  ref _ hr hlt := h.ref_eq ⟨hlt, hr⟩
  free_ref p hp := by
    have hc := h.page.count p (h.page.free_managed p hp)
    rwa [h.page.free_unref p hp] at hc
  free_unref _ hp := h.page.slot_ne_of_mem hp
  free_unreserved p hp := (h.page.free_managed p hp).2
  unshared := h.page.unique

/-- After every run of the operations from boot on, the accounting of physical
pages is right. -/
theorem memRun_accounting (h₀ : Booted B σ₀) {ops : List MemOp}
    (hrun : Run (MemStep B) (bootState B σ₀) ops σ) :
    ∃ free efree, MemInv B σ free efree ∧ PageAccounting B σ free := by
  obtain ⟨free₀, hinit, -⟩ := bootState_inv h₀
  obtain ⟨free, efree, hinv⟩ := hinit.run hrun
  exact ⟨free, efree, hinv, hinv.accounting⟩

/-- A machine with 4 MB of memory. -/
def smallMachine : Boot where
  npages := 1024
  npagesBasemem := 160
  kernEnd := 0xF0110000#32
  npages_le := by decide
  basemem_le := by decide
  end_ge := by decide
  fits_addr := by decide
  fits_mem := by decide

/-- Its pages besides the first one, the I/O hole and what the kernel has allocated for itself. -/
theorem smallMachine_managed_iff (p : ℕ) :
    smallMachine.Managed p ↔ 1 ≤ p ∧ p < 160 ∨ 306 ≤ p ∧ p < 1024 := by
  rw [Boot.Managed, Boot.reserved_iff, show smallMachine.npages = 1024 from rfl,
    show smallMachine.bootFrame = 306 by decide]
  omega

/-- Its memory when `page_init` is called. -/
def smallMemory : State where
  pages _ := ⟨none, 0#16⟩
  pageFreeList := none
  mem := Function.update (fun _ _ => 0#32) smallMachine.kernFrame
    (Function.update (fun _ => 0#32) (pdx uvpt)
      ((smallMachine.kernPgdir - kernbase) ||| pteU ||| pteP))
  envs _ := {}
  envFreeList := none
  cpus _ := {}
  userMemCheckAddr := 0#32

theorem smallMemory_booted : Booted smallMachine smallMemory :=
  ⟨fun _ => rfl, rfl, by simp only [smallMemory, Function.update_self], fun _ => rfl, rfl⟩

/-- The small machine boots with free pages, those from 1 to 65 at least, and free
environments. -/
theorem smallMachine_pages : ∃ free rest,
    MemInv smallMachine (bootState smallMachine smallMemory) free (0 :: rest) ∧
      65 ≤ free.length := by
  obtain ⟨free, hinv, hmem⟩ := bootState_inv smallMemory_booted
  have hfirst : ∃ rest, List.finRange nenv = 0 :: rest := ⟨_, List.finRange_succ⟩
  obtain ⟨rest, hrest⟩ := hfirst
  rw [hrest] at hinv
  have hsub : List.range' 1 65 ⊆ free := by
    intro p hp
    rw [List.mem_range'_1] at hp
    exact (hmem p).mpr ((smallMachine_managed_iff p).mpr (by omega))
  have hle := (List.subperm_of_subset List.nodup_range' hsub).length_le
  rw [List.length_range'] at hle
  exact ⟨free, rest, hinv, hle⟩

theorem smallMachine_inv : ∃ p free rest,
    MemInv smallMachine (bootState smallMachine smallMemory) (p :: free) (0 :: rest) := by
  obtain ⟨free, rest, hinv, hlen⟩ := smallMachine_pages
  obtain ⟨p, free, rfl⟩ := List.exists_cons_of_length_pos (Nat.zero_lt_of_lt hlen)
  exact ⟨p, free, rest, hinv⟩

theorem MemStep.envAlloc {parentId : Word} {r : ℤ} {ne : Option (Fin nenv)}
    (hrun : Jos.envAlloc B parentId σ = .ok (r, ne, σ')) (hb : ∀ p, refs B σ' p ≤ 65535) :
    MemStep B σ (.envAlloc parentId) σ' :=
  ⟨trivial, map_eq_ok.mpr ⟨(r, ne, σ'), hrun, rfl⟩, hb⟩

/-- `page_alloc` is a step. -/
theorem MemInv.pageAlloc_step (h : MemInv B σ free efree) (flags : Word) :
    ∃ σ', MemStep B σ (.pageAlloc flags) σ' := by
  cases free with
  | nil =>
    exact ⟨σ, trivial, map_eq_ok.mpr ⟨_, pageAlloc_nil h.page flags, rfl⟩, h.bound⟩
  | cons p free =>
    obtain ⟨σ', hrun, -, hslots, -⟩ := pageAlloc_spec h.page flags
    refine ⟨σ', trivial, map_eq_ok.mpr ⟨_, hrun, rfl⟩, ?_⟩
    intro q
    rw [refs_eq_of_slots hslots]
    exact h.bound q

theorem memRun_accounting_smallMachine : ∃ σ free efree,
    Run (MemStep smallMachine) (bootState smallMachine smallMemory)
      [.envAlloc 0#32, .pageAlloc allocZero] σ ∧
    MemInv smallMachine σ free efree ∧ PageAccounting smallMachine σ free := by
  obtain ⟨p, free₀, rest, hinv⟩ := smallMachine_inv
  obtain ⟨σ₁, hrun₁, hinv₁, -⟩ := hinv.envAlloc_succeeds (by decide) 0#32
  have hs₁ := MemStep.envAlloc hrun₁ hinv₁.bound
  obtain ⟨σ₂, hs₂⟩ := hinv₁.pageAlloc_step allocZero
  have hrun : Run (MemStep smallMachine) (bootState smallMachine smallMemory)
      [.envAlloc 0#32, .pageAlloc allocZero] σ₂ := .cons hs₁ (.cons hs₂ .nil)
  obtain ⟨free, efree, hinv₂, hacc⟩ := memRun_accounting smallMemory_booted hrun
  exact ⟨σ₂, free, efree, hrun, hinv₂, hacc⟩

end Jos
