import Jos.Environment.Ids

/-!
# Authority over environments

`envid2env` with `checkperm` lets an environment act on itself and on its children,
which it recognises by comparing ids. Ids are recycled, so whether this is the
authority it looks like depends on the history.

A `Lineage` adds to the kernel state what the ids stand for: how often each slot
has been allocated, and which incarnation of which slot asked for the current
occupant of a slot. `LineageInv` says that the stored ids are the ids of those
incarnations. While no slot has been allocated 524287 times, different
incarnations have different ids, so the comparison of ids in `envid2env` is a
comparison of incarnations: `authority_exact`.
-/

namespace Jos

variable {B : Boot} {σ₀ : State}

/-- The kernel state with the history of its environments. -/
structure Lineage where
  state : State
  /-- How often each slot has been allocated. -/
  inc : Fin nenv → ℕ
  /-- The slot and incarnation that asked for the occupant of a slot; `none` is the
  kernel. -/
  creator : Fin nenv → Option (Fin nenv × ℕ)

/-- The lineage after `env_init`. -/
def Lineage.init (σ₀ : State) : Lineage := ⟨envInit σ₀, fun _ => 0, fun _ => none⟩

/-- What happens to environments and current environments. -/
inductive LineageEvent where
  /-- `env_alloc(&e, 0)`. -/
  | create (e : Fin nenv)
  /-- `env_alloc(&e, curenv->env_id)` on processor `cpu`. -/
  | fork (cpu : ℕ) (e : Fin nenv)
  /-- `env_alloc` failed. -/
  | refused (parentId : Word) (r : ℤ)
  /-- `env_free(e)` of a live environment. -/
  | freed (cpu : ℕ) (e : Fin nenv)
  /-- `curenv` on processor `cpu` becomes `c`. -/
  | switch (cpu : ℕ) (c : Option (Fin nenv))

/-- Slot `e` has a new occupant, asked for by `by`. -/
def Lineage.Born (L L' : Lineage) (e : Fin nenv) (by' : Option (Fin nenv × ℕ)) : Prop :=
  L'.inc = Function.update L.inc e (L.inc e + 1) ∧ L'.creator = Function.update L.creator e by'

/-- One event. -/
def LineageStep (B : Boot) (L : Lineage) : LineageEvent → Lineage → Prop
  | .create e, L' =>
    envAlloc B 0#32 L.state = .ok (0, some e, L'.state) ∧ L.Born L' e none
  | .fork cpu e, L' => ∃ c, L.state.curenv cpu = some c ∧ Live L.state c ∧
    envAlloc B (L.state.envs c).envId L.state = .ok (0, some e, L'.state) ∧
    L.Born L' e (some (c, L.inc c))
  | .refused parentId r, L' =>
    envAlloc B parentId L.state = .ok (r, none, L'.state) ∧ L'.inc = L.inc ∧ L'.creator = L.creator
  | .freed cpu e, L' =>
    (Live L.state e ∧ envFree B cpu e L.state = .ok L'.state) ∧
      L'.inc = L.inc ∧ L'.creator = L.creator
  | .switch cpu c, L' =>
    L'.state = L.state.setCurenv cpu c ∧ L'.inc = L.inc ∧ L'.creator = L.creator

/-- The id of the incarnation that asked for an environment. -/
def creatorId : Option (Fin nenv × ℕ) → Word
  | none => 0#32
  | some (c, m) => envIdAt c m

/-- The stored ids are those of the incarnations. -/
structure LineageInv (L : Lineage) : Prop extends IdInv L.state L.inc where
  parent : ∀ e, Live L.state e → (L.state.envs e).envParentId = creatorId (L.creator e)
  creator_le : ∀ e c m, L.creator e = some (c, m) → m ≠ 0 ∧ m ≤ L.inc c

/-! ### The invariant -/

@[simp] theorem Lineage.init_state (σ₀ : State) : (Lineage.init σ₀).state = envInit σ₀ := rfl

theorem lineageInv_init (σ₀ : State) : LineageInv (Lineage.init σ₀) where
  toIdInv := envInit_idInv σ₀
  parent e hlive := by
    rw [Lineage.init_state] at hlive
    exact absurd ((envInit_inited σ₀).status e) hlive
  creator_le _ _ _ hc := by cases hc

/-- A new occupant whose parent id is that of the incarnation that asked for it. -/
theorem LineageInv.born {L L' : Lineage} {parentId : Word} {e : Fin nenv}
    {by' : Option (Fin nenv × ℕ)} (h : LineageInv L)
    (hrun : envAlloc B parentId L.state = .ok (0, some e, L'.state)) (hb : L.Born L' e by')
    (hid : parentId = creatorId by') (hle : ∀ c m, by' = some (c, m) → m ≠ 0 ∧ m ≤ L.inc c) :
    LineageInv L' := by
  obtain ⟨hinc, hcreator⟩ := hb
  have hcr := envAlloc_zero_table hrun
  have hids : IdInv L'.state L'.inc := by
    rw [hinc]
    have hstep : EnvStep B L.state (.created parentId e (L'.state.envs e).envId) L'.state :=
      ⟨hrun, rfl⟩
    exact h.toIdInv.step hstep
  refine ⟨hids, ?_, ?_⟩
  · intro e' hlive
    rw [hcreator]
    by_cases hee : e' = e
    · obtain ⟨pgdir, henvs⟩ := hcr.envs
      rw [hee, Function.update_self, henvs, Function.update_self, ← hid]
      rfl
    · rw [Function.update_of_ne hee, hcr.of_ne hee]
      apply h.parent e'
      rwa [Live, hcr.of_ne hee] at hlive
  · -- incarnations are only ever added
    intro e' c m hc
    have hmono : ∀ x, L.inc x ≤ L'.inc x := by
      intro x
      rw [hinc]
      by_cases hxe : x = e
      · rw [hxe, Function.update_self]
        omega
      · rw [Function.update_of_ne hxe]
    rw [hcreator] at hc
    by_cases hee : e' = e
    · rw [hee, Function.update_self] at hc
      obtain ⟨h0, hm⟩ := hle c m hc
      exact ⟨h0, hm.trans (hmono c)⟩
    · rw [Function.update_of_ne hee] at hc
      obtain ⟨h0, hm⟩ := h.creator_le e' c m hc
      exact ⟨h0, hm.trans (hmono c)⟩

/-- An event that adds no environment and keeps ids and parent ids. -/
theorem LineageInv.quiet {L L' : Lineage} (h : LineageInv L) (hids : IdInv L'.state L.inc)
    (hinc : L'.inc = L.inc) (hcreator : L'.creator = L.creator)
    (hlive : ∀ e, Live L'.state e → Live L.state e)
    (hparent : ∀ e, (L'.state.envs e).envParentId = (L.state.envs e).envParentId) :
    LineageInv L' where
  toIdInv := by
    rw [hinc]
    exact hids
  parent e he := by
    rw [hparent, hcreator]
    exact h.parent e (hlive e he)
  creator_le e c m hc := by
    rw [hinc]
    rw [hcreator] at hc
    exact h.creator_le e c m hc

/-- Every event keeps the invariant. -/
theorem LineageInv.step {L L' : Lineage} {ev : LineageEvent} (h : LineageInv L)
    (hs : LineageStep B L ev L') : LineageInv L' := by
  cases ev with
  | create e => exact h.born hs.1 hs.2 rfl fun c m hc => by cases hc
  | fork cpu e =>
    obtain ⟨c, -, hlive, hrun, hborn⟩ := hs
    -- the parent id is the id the requester has, which is that of its incarnation
    apply h.born hrun hborn (h.id c)
    intro c' m hc
    obtain ⟨rfl, rfl⟩ := Prod.mk.inj (Option.some.inj hc)
    exact ⟨h.live c hlive, le_refl _⟩
  | refused parentId r =>
    obtain ⟨hrun, hinc, hcreator⟩ := hs
    have hsame := envAlloc_none_table hrun
    have hstep : EnvStep B L.state (.refused parentId r) L'.state := hrun
    refine h.quiet (h.toIdInv.step hstep) hinc hcreator (fun e => (hsame.live_iff e).mp) ?_
    intro e
    rw [hsame.envs]
  | freed cpu e =>
    obtain ⟨⟨hlive, hrun⟩, hinc, hcreator⟩ := hs
    have henvs := (envFree_table hrun).1
    have hstep : EnvStep B L.state (.freed cpu e) L'.state := ⟨hlive, hrun⟩
    refine h.quiet (h.toIdInv.step hstep) hinc hcreator ?_ ?_
    · intro e' he'
      by_cases hee : e' = e
      · exact hee ▸ hlive
      · rwa [Live, henvs, Function.update_of_ne hee] at he'
    · intro e'
      rw [henvs]
      by_cases hee : e' = e
      · rw [hee, Function.update_self]
      · rw [Function.update_of_ne hee]
  | switch cpu c =>
    obtain ⟨hstate, hinc, hcreator⟩ := hs
    have henvs : L'.state.envs = L.state.envs := by rw [hstate]; rfl
    have hlive : ∀ e, Live L'.state e → Live L.state e := fun e he => by rwa [Live, henvs] at he
    refine h.quiet ⟨?_, fun e he => h.live e (hlive e he)⟩ hinc hcreator hlive ?_
    · intro e
      rw [henvs]
      exact h.id e
    · intro e
      rw [henvs]

/-! ### Authority -/

/-- Environment `c`, in its current incarnation, may act on `e`. -/
def Controls (L : Lineage) (c e : Fin nenv) : Prop :=
  e = c ∨ L.creator e = some (c, L.inc c)

/-- What `envid2env` with `checkperm` grants on processor `cpu`. -/
structure AuthorityExact (L : Lineage) (cpu : ℕ) (c : Fin nenv) : Prop where
  grants : ∀ id, (envid2env cpu id true L.state).1 = 0 ↔
    id = 0#32 ∨ ∃ e, Live L.state e ∧ (L.state.envs e).envId = id ∧ Controls L c e
  denies : ∀ id, (envid2env cpu id true L.state).1 ≠ 0 →
    envid2env cpu id true L.state = (-eBadEnv, none)
  /-- In particular the children of an earlier occupant of the slot of `c`, and the
  present occupant of a slot that a child of `c` once had, are out of reach. -/
  outOfReach : ∀ e, Live L.state e → ¬Controls L c e →
    envid2env cpu (L.state.envs e).envId true L.state = (-eBadEnv, none)

/-- As long as the generations have not wrapped, a parent id is the id of the
current incarnation of `c` exactly when that incarnation asked for `e`. -/
theorem LineageInv.parent_eq_iff {L : Lineage} (h : LineageInv L) (hfew : ∀ e, L.inc e < 524287)
    {c e : Fin nenv} (hc : Live L.state c) (he : Live L.state e) :
    (L.state.envs e).envParentId = (L.state.envs c).envId ↔
      L.creator e = some (c, L.inc c) := by
  have hc0 := h.live c hc
  rw [h.parent e he, h.id c]
  cases hcr : L.creator e with
  | none =>
    -- the kernel's parent id is 0, which is nobody's id
    exact iff_of_false (fun hz => envIdAt_ne_zero hc0 hz.symm) (fun hz => by cases hz)
  | some u =>
    obtain ⟨c', m⟩ := u
    obtain ⟨hm0, hm⟩ := h.creator_le e c' m hcr
    have hfc := hfew c
    have hfc' := hfew c'
    rw [show creatorId (some (c', m)) = envIdAt c' m from rfl, envIdAt_inj_iff hm0 hc0,
      Option.some.injEq, Prod.mk.injEq]
    -- neither count has reached 524287, so equal ids are equal incarnations
    apply and_congr_right
    intro hcc
    subst hcc
    omega

/-- The three ways through `envid2env` with `checkperm`, for an id that is not 0. -/
theorem LineageInv.envid2env_eq {L : Lineage} (h : LineageInv L)
    (hfew : ∀ e, L.inc e < 524287) {cpu : ℕ} {c : Fin nenv} (hcur : L.state.curenv cpu = some c)
    (hc : Live L.state c) {id : Word} (hid : id ≠ 0#32) :
    (∃ e, Live L.state e ∧ (L.state.envs e).envId = id ∧ Controls L c e ∧
      envid2env cpu id true L.state = (0, some e)) ∨
    ((¬∃ e, Live L.state e ∧ (L.state.envs e).envId = id ∧ Controls L c e) ∧
      envid2env cpu id true L.state = (-eBadEnv, none)) := by
  set e := envx id with he
  -- an environment with this id can only be in the slot the id names
  have hslot : ∀ e', Live L.state e' → (L.state.envs e').envId = id → e' = e := by
    intro e' hl hi
    rw [he, ← hi, h.id e', envx_envIdAt (h.live e' hl)]
  by_cases hbad : ¬Live L.state e ∨ (L.state.envs e).envId ≠ id
  · -- there is no such environment
    refine Or.inr ⟨?_, envid2env_bad hid hbad cpu true⟩
    rintro ⟨e', hl, hi, -⟩
    obtain rfl := hslot e' hl hi
    exact hbad.elim (fun hn => hn hl) fun hn => hn hi
  · obtain ⟨hlive, hide⟩ := not_or.mp hbad
    rw [not_not] at hlive hide
    have hfound : ¬((L.state.envs e).envStatus = .free ∨ (L.state.envs e).envId ≠ id) :=
      not_or.mpr ⟨hlive, not_not.mpr hide⟩
    -- what the code compares is what `Controls` says
    have hcheck : (True ∧ some e ≠ L.state.curenv cpu ∧
        some (L.state.envs e).envParentId ≠
          (L.state.curenv cpu).map fun c => (L.state.envs c).envId) ↔ ¬Controls L c e := by
      rw [hcur, Option.map_some, Controls, not_or, ← h.parent_eq_iff hfew hc hlive]
      simp only [true_and, ne_eq, Option.some.injEq]
    by_cases hctl : Controls L c e
    · refine Or.inl ⟨e, hlive, hide, hctl, ?_⟩
      simp only [envid2env, if_neg hid, ← he, if_neg hfound]
      rw [if_neg (fun hx => hcheck.mp hx hctl)]
    · refine Or.inr ⟨?_, ?_⟩
      · rintro ⟨e', hl, hi, hct⟩
        obtain rfl := hslot e' hl hi
        exact hctl hct
      · simp only [envid2env, if_neg hid, ← he, if_neg hfound]
        rw [if_pos (hcheck.mpr hctl)]

/-- Authority is exactly over oneself and over the children of one's own
incarnation. -/
theorem authority_exact {evs : List LineageEvent} {L : Lineage}
    (hrun : Run (LineageStep B) (Lineage.init σ₀) evs L) (hfew : ∀ e, L.inc e < 524287) {cpu : ℕ}
    {c : Fin nenv} (hcur : L.state.curenv cpu = some c) (hc : Live L.state c) :
    AuthorityExact L cpu c := by
  have h : LineageInv L := hrun.invariant (P := LineageInv) (fun _ _ _ hi hs => hi.step hs)
    (lineageInv_init σ₀)
  have hzero : ∀ id, id = 0#32 → envid2env cpu id true L.state = (0, some c) := by
    rintro id rfl
    simp only [envid2env, if_true, hcur]
  refine ⟨?_, ?_, ?_⟩
  · intro id
    by_cases hid : id = 0#32
    · exact iff_of_true (by rw [hzero id hid]) (Or.inl hid)
    · obtain ⟨e, hl, hi, hct, hok⟩ | ⟨hno, hbad⟩ := h.envid2env_eq hfew hcur hc hid
      · exact iff_of_true (by rw [hok]) (Or.inr ⟨e, hl, hi, hct⟩)
      · refine iff_of_false (by rw [hbad]; decide) (not_or.mpr ⟨hid, hno⟩)
  · intro id hne
    by_cases hid : id = 0#32
    · exact absurd (by rw [hzero id hid]) hne
    · obtain ⟨e, -, -, -, hok⟩ | ⟨-, hbad⟩ := h.envid2env_eq hfew hcur hc hid
      · exact absurd (by rw [hok]) hne
      · exact hbad
  · intro e he hno
    have hid : (L.state.envs e).envId ≠ 0#32 := by
      rw [h.id e]
      exact envIdAt_ne_zero (h.live e he)
    obtain ⟨e', hl, hi, hct, -⟩ | ⟨-, hbad⟩ := h.envid2env_eq hfew hcur hc hid
    · -- live environments with the same id are the same
      rw [h.id e', h.id e, envIdAt_inj_iff (h.live e' hl) (h.live e he)] at hi
      exact absurd (hi.1 ▸ hct) hno
    · exact hbad

theorem authority_exact_smallMachine : ∃ L,
    Run (LineageStep smallMachine) (Lineage.init (pageInit smallMachine smallMemory))
      [.create 0, .switch 0 (some 0)] L ∧
    L.state.curenv 0 = some 0 ∧ Live L.state 0 ∧ AuthorityExact L 0 0 := by
  obtain ⟨p, free, rest, hinv⟩ := smallMachine_inv
  obtain ⟨σ₁, halloc, -, hal⟩ := hinv.envAlloc_succeeds (by decide) 0#32
  let inc : Fin nenv → ℕ := Function.update (fun _ => 0) 0 1
  let creator : Fin nenv → Option (Fin nenv × ℕ) := Function.update (fun _ => none) 0 none
  have hcreate : LineageStep smallMachine (Lineage.init (pageInit smallMachine smallMemory))
      (.create 0) ⟨σ₁, inc, creator⟩ := by
    refine ⟨?_, rfl, rfl⟩
    rw [Lineage.init_state]
    exact halloc
  have hswitch : LineageStep smallMachine ⟨σ₁, inc, creator⟩ (.switch 0 (some 0))
      ⟨σ₁.setCurenv 0 (some 0), inc, creator⟩ := ⟨rfl, rfl, rfl⟩
  have hrun := Run.cons hcreate (Run.cons hswitch .nil)
  -- far fewer incarnations than there are generations
  have hfew : ∀ e, inc e < 524287 := by
    intro e
    by_cases he : e = 0
    · rw [he, show inc 0 = 1 from Function.update_self ..]
      decide
    · rw [show inc e = 0 from Function.update_of_ne he ..]
      decide
  have hcur : (σ₁.setCurenv 0 (some 0)).curenv 0 = some 0 := by
    simp [State.setCurenv, State.setCpu, State.curenv]
  have hlive : Live (σ₁.setCurenv 0 (some 0)) 0 := by
    exact hal.live
  exact ⟨_, hrun, hcur, hlive, authority_exact hrun hfew hcur hlive⟩

end Jos
