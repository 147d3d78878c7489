import Jos.Memory.InsertExact

/-!
# The life of an environment

`env_free` takes back exactly what its environment held (`envFree_effect`): every
counter falls by the number of references the environment had to the page, the
pages whose counter reaches zero are the ones that join the free list, and no
other address space notices.

Over a whole life nothing leaks and nothing is freed too early
(`lifetime_balanced`). Between `env_alloc` and `env_free` the environment gets
pages that were free when its life began and gives up pages of its own;
`Lifetime` is the invariant that says so: everything it holds, and everything now
free, was free at the beginning, and the rest of the system is as it was. At the
end `env_free` returns what is still mapped, so the free pages are those of the
beginning, provided the callers of `page_alloc` hold nothing back.
-/

namespace Jos

variable {B : Boot} {σ σ' σ₀ : State} {free free' free₀ : List ℕ} {efree efree' : List (Fin nenv)}
  {e : Fin nenv}

/-- The number of references to page `p` that environment `e` holds: its user page
table entries, its user page tables and its page directory. -/
def ownRefs (B : Boot) (σ : State) (e : Fin nenv) (p : ℕ) : ℕ :=
  refCount (fun s : Slot => if s.owner = some e then slotRef B σ s else none) p

/-- What `env_free(e)` does, from `σ` to `σ'`. -/
structure EnvFreeEffect (B : Boot) (σ : State) (e : Fin nenv) (σ' : State) : Prop where
  ref : ∀ p, (σ'.ref p).toNat + ownRefs B σ e p = (σ.ref p).toNat
  freed : ∀ p, OnFreeList σ' p ↔
    OnFreeList σ p ∨ B.Managed p ∧ σ.ref p ≠ 0#16 ∧ σ'.ref p = 0#16
  others : ∀ e', e' ≠ e → σ'.envs e' = σ.envs e' ∧
    (Live σ e' → dirMap σ' (frameAt (σ.envs e').envPgdir) = dirMap σ (frameAt (σ.envs e').envPgdir))
  kern : x86Walk σ' B.kernFrame = x86Walk σ B.kernFrame
  status : (σ'.envs e).envStatus = .free

/-! ### `env_free` -/

/-- The references split into those of `e` and those of everybody else. -/
theorem refs_eq_own (B : Boot) (σ : State) (e : Fin nenv) (p : ℕ) :
    refs B σ p = ownRefs B σ e p +
      refCount (fun s : Slot => if s.owner = some e then none else slotRef B σ s) p :=
  refCount_filter (slotRef B σ) (fun s => s.owner = some e) p

theorem page2pa_kernFrame (B : Boot) : B.kernPgdir - kernbase = page2pa B.kernFrame := by
  have hn := B.npages_le
  have hlt := B.kernFrame_lt
  have hnat := B.kernPgdir_toNat.1
  have hge := B.imageEnd_ge
  have hk : kernbase.toNat = 0xF0000000 := rfl
  have hm₁ := B.imageEnd_mod
  have hm₂ := B.pagesSize_mod
  apply BitVec.eq_of_toNat_eq
  rw [BitVec.toNat_sub_of_le (kernbase_le_kernPgdir B), page2pa_toNat (by omega),
    B.kernFrame_eq, hnat, hk]
  omega

theorem MemInv.entryOf_self (h : MemInv B σ free efree) :
    entryOf (σ.mem B.kernFrame (pdx uvpt)) = some (B.kernFrame, 5#12) := by
  have hn := B.npages_le
  have hlt := B.kernFrame_lt
  rw [h.self, page2pa_kernFrame, entryOf_page2pa (by omega) (by decide)]
  rfl

/-- The walks through `kern_pgdir` read its user slots, and words that `env_free`
keeps. -/
theorem EnvFreed.kern_walk (h : MemInv B σ free efree) (hf : EnvFreed B 0 e σ free σ' free') :
    x86Walk σ' B.kernFrame = x86Walk σ B.kernFrame := by
  have hdir : ∀ i, entryOf (σ'.mem B.kernFrame i) = entryOf (σ.mem B.kernFrame i) := by
    intro i
    by_cases hi : i.val < 955
    · -- below `UTOP` the entries are slots of the kernel, which are not `e`'s
      have hkept := hf.clears.kept (.pde none i) (fun hc => by cases hc)
      rwa [slots_pde rfl (tracked_of_lt hi none), slots_pde rfl (tracked_of_lt hi none)] at hkept
    · rw [hf.upper none B.kernFrame rfl i (by omega)]
  ext i j
  unfold x86Walk
  rw [hdir i]
  cases ht : entryOf (σ.mem B.kernFrame i) with
  | none => rfl
  | some t =>
    have htab : entryOf (σ'.mem t.1 j) = entryOf (σ.mem t.1 j) := by
      by_cases hu : i = pdx uvpt
      · -- the self-referring slot shows the directory once more
        rw [hu, h.entryOf_self] at ht
        obtain rfl := Option.some.inj ht
        exact hdir j
      · by_cases hi : i.val < 955
        · rw [h.low i hi] at ht
          cases ht
        · rw [hf.upperTable i t (by omega) hu ht]
    rw [Option.bind_some, Option.bind_some, htab]

theorem EnvFreed.refs_eq (hf : EnvFreed B 0 e σ free σ' free') (p : ℕ) :
    refs B σ' p + ownRefs B σ e p = refs B σ p := by
  have hrefs : slotRef B σ' = fun s => if s.owner = some e then none else slotRef B σ s := by
    ext s
    by_cases ho : s.owner = some e
    · rw [if_pos ho, slotRef, hf.clears.cleared s ho]
      rfl
    · rw [if_neg ho, slotRef, hf.clears.kept s ho]
      rfl
  rw [refs_eq_own B σ e p, refs, hrefs, add_comm]

theorem EnvFreed.bound (h : GlobalInv B σ free) (hf : EnvFreed B 0 e σ free σ' free') (p : ℕ) :
    refs B σ' p ≤ 65535 := (hf.clears.refs_le p).trans (h.bound p)

/-- `env_free` of a live environment has its effect. -/
theorem envFree_effect (h : MemInv B σ free efree) (he : Live σ e) (cpu : ℕ) :
    ∃ σ', envFree B cpu e σ = .ok σ' ∧ EnvFreeEffect B σ e σ' := by
  obtain ⟨σ', free', hrun, hf, -⟩ := envFree_spec h.page h.env he h.bound_held cpu
  have h' : GlobalInv B σ' free' := ⟨hf.clears.inv, hf.bound h.toGlobalInv⟩
  -- a counter reads zero exactly when there is no reference, before and after
  have hzero : ∀ {τ : State} {l : List ℕ} {p : ℕ}, GlobalInv B τ l → B.Managed p →
      (τ.ref p = 0#16 ↔ refs B τ p = 0) := by
    intro τ l p hτ hm
    rw [← hτ.ref_eq hm, ← BitVec.toNat_inj]
    rfl
  refine ⟨σ', hrun, ⟨fun p => ?_, fun p => ?_, fun e' he' => ⟨?_, fun hlive => ?_⟩,
    hf.kern_walk h, by rw [hf.envs, Function.update_self]⟩⟩
  · -- the counters are the references, and the references split
    by_cases hm : B.Managed p
    · rw [h'.ref_eq hm, h.ref_eq hm]
      exact hf.refs_eq p
    · -- nothing refers to a reserved page
      rw [hf.unmanaged p hm, Nat.add_eq_left]
      refine refCount_eq_zero.mpr fun s hs => hm (h.page.slot_managed s p ?_)
      by_cases ho : s.owner = some e
      · rwa [if_pos ho] at hs
      · rw [if_neg ho] at hs
        cases hs
  · rw [h'.page.onFreeList_iff, h.page.onFreeList_iff, hf.clears.freed p, Pi.zero_apply,
      add_zero, add_zero]
    refine or_congr_right ⟨?_, ?_⟩
    · -- a page that was referred to is managed
      rintro ⟨h0, hpos⟩
      obtain ⟨s, hs⟩ := refCount_pos.mp hpos
      have hm : B.Managed p := h.page.slot_managed s p hs
      exact ⟨hm, fun hc => by rw [(hzero h.toGlobalInv hm).mp hc] at hpos; omega,
        (hzero h' hm).mpr h0⟩
    · rintro ⟨hm, hne, h0⟩
      refine ⟨(hzero h' hm).mp h0, Nat.pos_of_ne_zero fun hc => ?_⟩
      exact hne ((hzero h.toGlobalInv hm).mpr hc)
  · rw [hf.envs, Function.update_of_ne he']
  · have hd := h.env.dirFrame_live (B := B) hlive
    have hd' : dirFrame B σ' (some e') = some (frameAt (σ.envs e').envPgdir) := by
      rw [← hd]
      simp only [dirFrame, hf.envs, Function.update_of_ne he']
    refine dirMap_congr hd hd' fun i j => hf.clears.kept (.pte (some e') i j) ?_
    intro hc
    exact he' (Option.some.inj hc)

/-! ### From `env_alloc` to `env_free` -/

/-- What is done in the life of environment `e` that began in `σ₀`: pages are
allocated, mapped, mapped again and unmapped at user addresses of `e`, and given
back; all of them were free in `σ₀`. -/
def MemOp.InLife (σ₀ : State) (e : Fin nenv) : MemOp → Prop
  | .pageAlloc _ => True
  | .pageFree pp => OnFreeList σ₀ pp
  | .pageInsert _ e' pp _ _ => e' = e ∧ OnFreeList σ₀ pp
  | .pageRemove _ e' _ => e' = e
  | .pgdirWalk e' _ => e' = e
  | _ => False

/-- One operation in the life of environment `e`. -/
structure LifeStep (B : Boot) (σ₀ : State) (e : Fin nenv) (σ : State) (op : MemOp) (σ' : State) :
    Prop extends MemStep B σ op σ' where
  inLife : op.InLife σ₀ e

/-- The invariant of a life that began with the free pages `free₀`. -/
structure Lifetime (B : Boot) (σ₀ : State) (free₀ : List ℕ) (e : Fin nenv) (σ : State)
    (free : List ℕ) (efree : List (Fin nenv)) : Prop where
  inv : MemInv B σ free efree
  live : Live σ e
  other : ∀ s, s.owner ≠ some e → slots B σ s = slots B σ₀ s
  own : ∀ s p, s.owner = some e → slotRef B σ s = some p → p ∈ free₀
  free : ∀ p ∈ free, p ∈ free₀

theorem MemInv.live_iff (h : MemInv B σ free efree) : Live σ e ↔ e ∉ efree := by
  rw [h.env.free_iff]
  rfl

/-- A step on the slots of `e` with pages of the life keeps the invariant. -/
theorem Lifetime.local (h : Lifetime B σ₀ free₀ e σ free efree) (h' : MemInv B σ' free' efree)
    {Q : Set ℕ} (hQ : ∀ p ∈ Q, p ∈ free₀) (hloc : LocalTo B (some e) Q σ free σ' free') :
    Lifetime B σ₀ free₀ e σ' free' efree where
  inv := h'
  live := h'.live_iff.mpr (h.inv.live_iff.mp h.live)
  other s hs := by rw [hloc.other s hs, h.other s hs]
  own s p ho hs := by
    rcases hloc.own s p hs with hold | hfree | hq
    · exact h.own s p ho hold
    · exact h.free p hfree
    · exact hQ p hq
  free p hp := by
    rcases hloc.freed p hp with hfree | hq | ⟨s, ho, hs⟩
    · exact h.free p hfree
    · exact hQ p hq
    · exact h.own s p ho hs

theorem Lifetime.step (h₀ : MemInv B σ₀ free₀ efree') (h : Lifetime B σ₀ free₀ e σ free efree)
    {op : MemOp} (hs : LifeStep B σ₀ e σ op σ') :
    ∃ free', Lifetime B σ₀ free₀ e σ' free' efree := by
  obtain ⟨⟨hal, hrun, hb⟩, hlife⟩ := hs
  have hQ : ∀ pp, OnFreeList σ₀ pp → ∀ p ∈ ({pp} : Set ℕ), p ∈ free₀ := by
    intro pp hpp p hp
    rw [Set.mem_singleton_iff.mp hp]
    exact (h₀.page.onFreeList_iff pp).mp hpp
  have hnone : ∀ p ∈ (∅ : Set ℕ), p ∈ free₀ := fun p hp => absurd hp (Set.notMem_empty p)
  -- each operation is local to `e` and to pages of the life
  cases op with
  | pageAlloc flags =>
    obtain ⟨r, σ₁, hrun₁, hinv⟩ := h.inv.pageAlloc flags
    obtain rfl := map_snd_ok hrun₁ hrun
    obtain ⟨free', h', hloc⟩ := hinv hb
    exact ⟨free', h.local h' hnone (hloc _)⟩
  | pageFree pp =>
    obtain ⟨σ₁, hrun₁, hinv⟩ := h.inv.pageFree hal.1 hal.2
    obtain rfl := ok_unique hrun₁ hrun
    obtain ⟨free', h', hloc⟩ := hinv hb
    exact ⟨free', h.local h' (hQ pp hlife) (hloc _)⟩
  | envAlloc parentId => exact absurd hlife id
  | envFree cpu e' => exact absurd hlife id
  | pageInsert cpu e' pp va perm =>
    obtain ⟨rfl, hpp⟩ := hlife
    obtain ⟨he, hva, hperm, hall, htab⟩ := hal
    obtain ⟨r, σ₁, hrun₁, hinv⟩ := h.inv.pageInsert cpu he hva hperm hall htab
    obtain rfl := map_snd_ok hrun₁ hrun
    obtain ⟨free', h', hloc⟩ := hinv hb
    exact ⟨free', h.local h' (hQ pp hpp) hloc⟩
  | pageRemove cpu e' va =>
    obtain rfl := hlife
    obtain ⟨σ₁, hrun₁, hinv⟩ := h.inv.pageRemove cpu hal.1 hal.2
    obtain rfl := ok_unique hrun₁ hrun
    obtain ⟨free', h', hloc⟩ := hinv hb
    exact ⟨free', h.local h' hnone hloc⟩
  | pgdirWalk e' va =>
    obtain rfl := hlife
    obtain ⟨r, σ₁, hrun₁, hinv⟩ := h.inv.walk (h.inv.env.dirFrame_live hal.1)
      (tracked_of_lt ((lt_utop_iff va).mp hal.2) _) (fun hc => by cases hc)
    obtain rfl := map_snd_ok hrun₁ hrun
    obtain ⟨free', h', hloc⟩ := hinv hb
    exact ⟨free', h.local h' hnone hloc⟩
  | kernWalk va => exact absurd hlife id

theorem Lifetime.run (h₀ : MemInv B σ₀ free₀ efree') (h : Lifetime B σ₀ free₀ e σ free efree)
    {ops : List MemOp} (hrun : Run (LifeStep B σ₀ e) σ ops σ') :
    ∃ free', Lifetime B σ₀ free₀ e σ' free' efree :=
  hrun.invariant (P := fun τ => ∃ free', Lifetime B σ₀ free₀ e τ free' efree)
    (fun _ _ _ ⟨_, hl⟩ hs => hl.step h₀ hs) ⟨free, h⟩

/-- A life begins with one page, the directory. -/
theorem Lifetime.begin {parentId : Word} (h : MemInv B σ free efree)
    (hrun : envAlloc B parentId σ = .ok (0, some e, σ')) :
    ∃ free' efree', Lifetime B σ free e σ' free' efree' := by
  obtain ⟨rest, p, free', rfl, rfl, hinv, hal⟩ := h.envAlloc_zero hrun
  have hfree : (σ.envs e).envStatus = .free := (h.env.free_iff e).mp List.mem_cons_self
  refine ⟨free', rest, ⟨hinv, hal.live, ?_, ?_,
    fun q hq => List.mem_cons_of_mem _ hq⟩⟩
  · intro s hs
    rw [hal.slots, Function.update_of_ne]
    rintro rfl
    exact hs rfl
  · intro s q ho hs
    rw [slotRef_update hal.slots] at hs
    by_cases hdir : s = .dir e
    · rw [hdir, Function.update_self] at hs
      rw [← Option.some.inj hs]
      exact List.mem_cons_self
    · -- a free environment had no other slot
      rw [Function.update_of_ne hdir, slotRef, slots_of_dirFrame_none
        (by rw [ho]; exact dirFrame_free hfree)] at hs
      cases hs

/-- When a life ends with nothing held back, the free pages are those of its
beginning. -/
theorem Lifetime.end_free (h₀ : MemInv B σ₀ free₀ efree')
    (h : Lifetime B σ₀ free₀ e σ free efree) (hf : EnvFreed B 0 e σ free σ' free')
    (hhand : ∀ p ∈ free₀, p ∉ free → 0 < refs B σ p) (p : ℕ) : p ∈ free' ↔ p ∈ free₀ := by
  rw [hf.clears.freed p, Pi.zero_apply, add_zero, add_zero]
  constructor
  · rintro (hp | ⟨h0, hpos⟩)
    · exact h.free p hp
    · obtain ⟨s, hs⟩ := refCount_pos.mp hpos
      by_cases ho : s.owner = some e
      · exact h.own s p ho hs
      · -- another space kept its reference, so the count is not zero
        refine absurd h0 (Nat.pos_iff_ne_zero.mp (refCount_pos.mpr ⟨s, ?_⟩))
        rw [slotRef, hf.clears.kept s ho]
        exact hs
  · intro hp
    by_cases hin : p ∈ free
    · exact Or.inl hin
    · -- the page is not free, so it is mapped, and by `e` alone
      refine Or.inr ⟨refCount_eq_zero.mpr ?_, hhand p hp hin⟩
      intro s hs
      by_cases ho : s.owner = some e
      · rw [slotRef, hf.clears.cleared s ho] at hs
        cases hs
      · rw [slotRef, hf.clears.kept s ho, h.other s ho] at hs
        exact h₀.page.slot_ne_of_mem hp s hs

theorem lifetime_balanced (h₀ : MemInv B σ₀ free₀ efree) {parentId : Word} {σ₁ σ₂ : State}
    (halloc : envAlloc B parentId σ₀ = .ok (0, some e, σ₁)) {ops : List MemOp}
    (hrun : Run (LifeStep B σ₀ e) σ₁ ops σ₂)
    (hhand : ∀ p, OnFreeList σ₀ p → ¬OnFreeList σ₂ p → 0 < refs B σ₂ p) (cpu : ℕ) :
    ∃ σ₃, envFree B cpu e σ₂ = .ok σ₃ ∧ ∀ p, OnFreeList σ₃ p ↔ OnFreeList σ₀ p := by
  obtain ⟨free₁, efree₁, hbegin⟩ := Lifetime.begin h₀ halloc
  obtain ⟨free₂, hlife⟩ := hbegin.run h₀ hrun
  obtain ⟨σ₃, free₃, hfree, hfreed, -⟩ :=
    envFree_spec hlife.inv.page hlife.inv.env hlife.live hlife.inv.bound_held cpu
  refine ⟨σ₃, hfree, ?_⟩
  intro p
  rw [hfreed.clears.inv.onFreeList_iff, h₀.page.onFreeList_iff]
  refine hlife.end_free h₀ hfreed (fun q hq hn => hhand q ?_ ?_) p
  · rwa [h₀.page.onFreeList_iff]
  · rwa [hlife.inv.page.onFreeList_iff]

/-- No leak and no over-free: `env_free` takes back exactly what the environment
held, and a whole life leaves the free pages as they were. -/
theorem envFree_exact (h : MemInv B σ free efree) :
    (∀ e cpu, Live σ e → ∃ σ', envFree B cpu e σ = .ok σ' ∧ EnvFreeEffect B σ e σ') ∧
    ∀ e cpu parentId σ₁ ops σ₂, envAlloc B parentId σ = .ok (0, some e, σ₁) →
      Run (LifeStep B σ e) σ₁ ops σ₂ →
      (∀ p, OnFreeList σ p → ¬OnFreeList σ₂ p → 0 < refs B σ₂ p) →
      ∃ σ₃, envFree B cpu e σ₂ = .ok σ₃ ∧ ∀ p, OnFreeList σ₃ p ↔ OnFreeList σ p :=
  ⟨fun _ cpu he => envFree_effect h he cpu,
    fun _ cpu _ _ _ _ halloc hrun hhand => lifetime_balanced h halloc hrun hhand cpu⟩

/-- The first environment of the small machine gets a page, and gives it back with its page
directory and the page table. -/
theorem envFree_exact_smallMachine : ∃ σ₁ σ₂ σ₃ pp,
    envAlloc smallMachine 0#32 (bootState smallMachine smallMemory) = .ok (0, some 0, σ₁) ∧
    Run (LifeStep smallMachine (bootState smallMachine smallMemory) 0) σ₁
      [.pageAlloc 0#32, .pageInsert 0 0 pp 0x800000#32 (pteW ||| pteU)] σ₂ ∧
    slotRef smallMachine σ₂ (.pte (some 0) (pdx 0x800000#32) (ptx 0x800000#32)) = some pp ∧
    envFree smallMachine 0 0 σ₂ = .ok σ₃ ∧ OnFreeList σ₃ pp ∧
    ∀ p, OnFreeList σ₃ p ↔ OnFreeList (bootState smallMachine smallMemory) p := by
  obtain ⟨free, rest, hinv, hlen⟩ := smallMachine_pages
  obtain ⟨d, pp, t, free, rfl⟩ : ∃ d pp t rest, free = d :: pp :: t :: rest := by
    match free, hlen with
    | d :: pp :: t :: rest, _ => exact ⟨d, pp, t, rest, rfl⟩
  obtain ⟨σ₁, halloc, hinv₁, hal⟩ := hinv.envAlloc_succeeds (by decide) 0#32
  -- the new environment has no mapping
  have hnone (s : Slot) (hs : s ≠ .dir 0) : slots smallMachine σ₁ s = none := by
    rw [hal.slots, Function.update_of_ne hs]
    exact bootState_slots smallMemory_booted s
  obtain ⟨σ', σ₂, hstep, hstep', hinv₂, -, hslots⟩ := hinv₁.mapNew hal.live
    (show 0x800000#32 < utop by decide) (show (pteW ||| pteU).toNat < 4096 by decide)
    (hnone _ (by simp)) 0
  have hpage : OnFreeList (bootState smallMachine smallMemory) pp :=
    (hinv.page.onFreeList_iff pp).mpr (by simp)
  have hrun : Run (LifeStep smallMachine (bootState smallMachine smallMemory) 0) σ₁
      [.pageAlloc 0#32, .pageInsert 0 0 pp 0x800000#32 (pteW ||| pteU)] σ₂ :=
    .cons ⟨hstep, trivial⟩ (.cons ⟨hstep', rfl, hpage⟩ .nil)
  have hpde : slotRef smallMachine σ₂ (.pde (some 0) (pdx 0x800000#32)) = some t := by
    rw [slotRef, hslots, Function.update_of_ne (by simp), Function.update_self]
    rfl
  have hpte : slotRef smallMachine σ₂ (.pte (some 0) (pdx 0x800000#32) (ptx 0x800000#32)) =
      some pp := by
    rw [slotRef, hslots, Function.update_self]
    rfl
  have hdir : slotRef smallMachine σ₂ (.dir 0) = some d := by
    rw [slotRef, hslots, Function.update_of_ne (by simp), Function.update_of_ne (by simp),
      hal.slots, Function.update_self]
    rfl
  obtain ⟨σ₃, hfree, hback⟩ := (envFree_exact hinv).2 0 0 0#32 σ₁ _ σ₂ halloc hrun
    fun q hq hn => by
      rw [hinv.page.onFreeList_iff] at hq
      rw [hinv₂.page.onFreeList_iff] at hn
      simp only [List.mem_cons, hn, or_false] at hq
      obtain rfl | rfl | rfl := hq
      · exact refCount_pos.mpr ⟨_, hdir⟩
      · exact refCount_pos.mpr ⟨_, hpte⟩
      · exact refCount_pos.mpr ⟨_, hpde⟩
  exact ⟨σ₁, σ₂, σ₃, pp, halloc, hrun, hpte, hfree, (hback pp).mpr hpage, hback⟩

end Jos
