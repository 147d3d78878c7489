import Jos.Memory.MemRun

/-!
# Double frees

`page_free` takes a page whose `pp_link` is not null for one that is on the free list already.
This is right for every page of the list but the last, whose `pp_link` is null as well: freeing
that page again is not noticed (`Caught`, `LastFree`), and closes the list to a circle.

The runs are those of `page_alloc` and `page_free` with any arguments, from the end of
`page_init` on. `PoolInv` holds in all of them: what is on the list has no reference, so that
only the check of `pp_link` can catch a double free. As long as no call frees the last page of
the list, the list stays a chain (`PoolStep.acyclic`) and `page_alloc` does not hand a page out
twice (`NoDoubleAlloc`).
-/

namespace Jos

variable {B : Boot} {σ σ' σ₀ : State}

/-- A call of the allocator, with the page that `page_alloc` returns. -/
inductive PoolOp where
  | pageAlloc (flags : Word) (page : Option ℕ)
  | pageFree (pp : ℕ)

/-- A call that returns. -/
def PoolStep (B : Boot) (σ : State) : PoolOp → State → Prop
  | .pageAlloc flags page, σ' => Jos.pageAlloc B flags σ = .ok (page, σ')
  | .pageFree pp, σ' => pp < B.npages ∧ Jos.pageFree pp σ = .ok σ'

/-- Page `pp` is on the free list, which may run in a circle. -/
def OnList (σ : State) (pp : ℕ) : Prop := Reaches σ.link σ.pageFreeList pp

/-- The free list comes to an end. -/
def Acyclic (σ : State) : Prop := ∃ l, Chain σ.link σ.pageFreeList l

/-- `page_free(pp)` panics if the page is on the list or referred to. -/
def Caught (σ : State) (pp : ℕ) : Prop :=
  OnList σ pp ∨ σ.ref pp ≠ 0#16 → pageFree pp σ = .error ⟨"page_free is not right"⟩

/-- Page `pp` is the last one of the list. -/
def LastFree (σ : State) (pp : ℕ) : Prop := OnList σ pp ∧ σ.link pp = none

/-- The call does not free the last page of the list. -/
def Careful (σ : State) (op : PoolOp) : Prop := ∀ pp, op = .pageFree pp → ¬LastFree σ pp

/-- Between two calls of `page_alloc` that return the same page it is freed. -/
def NoDoubleAlloc (ops : List PoolOp) : Prop :=
  ∀ before between after flags flags' p,
    ops = before ++ .pageAlloc flags (some p) :: (between ++
      .pageAlloc flags' (some p) :: after) → .pageFree p ∈ between

/-! ### The two functions on the list -/

/-- The ways through `page_alloc`. -/
theorem pageAlloc_list {flags : Word} {page : Option ℕ}
    (h : pageAlloc B flags σ = .ok (page, σ')) :
    (page = none ∧ σ.pageFreeList = none ∧ σ' = σ) ∨
    ∃ p, page = some p ∧ σ.pageFreeList = some p ∧ σ'.pageFreeList = σ.link p ∧
      σ'.link = Function.update σ.link p none ∧ σ'.ref = σ.ref := by
  unfold pageAlloc at h
  split at h
  · next hnone =>
    obtain ⟨rfl, rfl⟩ := Prod.mk.inj (Except.ok.inj h)
    exact Or.inl ⟨rfl, hnone, rfl⟩
  · next p hsome =>
    -- the list is the same whether the page is cleared or not
    refine Or.inr ⟨p, ?_⟩
    split at h
    · obtain ⟨kva, -, h⟩ := bind_eq_ok.mp h
      obtain ⟨rfl, rfl⟩ := Prod.mk.inj (Except.ok.inj h)
      exact ⟨rfl, hsome, rfl, link_setLink σ p none, ref_setLink σ p none⟩
    · obtain ⟨rfl, rfl⟩ := Prod.mk.inj (Except.ok.inj h)
      exact ⟨rfl, hsome, rfl, link_setLink σ p none, ref_setLink σ p none⟩

/-- A `page_free` that returns has found no link and no reference. -/
theorem pageFree_list {pp : ℕ} (h : pageFree pp σ = .ok σ') :
    σ.link pp = none ∧ σ.ref pp = 0#16 ∧ σ'.pageFreeList = some pp ∧
      σ'.link = Function.update σ.link pp σ.pageFreeList ∧ σ'.ref = σ.ref := by
  unfold pageFree at h
  split at h
  · cases h
  · next hok =>
    rw [not_or, not_not, not_not] at hok
    obtain rfl := Except.ok.inj h
    exact ⟨hok.1, hok.2, rfl, link_setLink σ pp _, ref_setLink σ pp _⟩

theorem PoolStep.deterministic {op : PoolOp} {σ₁ σ₂ : State} (h₁ : PoolStep B σ op σ₁)
    (h₂ : PoolStep B σ op σ₂) : σ₁ = σ₂ := by
  cases op with
  | pageAlloc flags page => exact (ok_unique_pair h₁ h₂).2
  | pageFree pp => exact ok_unique h₁.2 h₂.2

/-! ### Every run -/

/-- What the head or a link leads to has no reference. -/
structure PoolInv (σ : State) : Prop where
  head : ∀ p, σ.pageFreeList = some p → σ.ref p = 0#16
  link : ∀ q p, σ.link q = some p → σ.ref p = 0#16

theorem PoolInv.ref_eq (h : PoolInv σ) {pp : ℕ} (hpp : OnList σ pp) : σ.ref pp = 0#16 :=
  hpp.induct (P := fun p => σ.ref p = 0#16) h.head h.link

theorem PoolInv.step {op : PoolOp} (h : PoolInv σ) (hs : PoolStep B σ op σ') : PoolInv σ' := by
  cases op with
  | pageAlloc flags page =>
    obtain ⟨-, -, rfl⟩ | ⟨p, -, -, hhd, hlink, href⟩ := pageAlloc_list hs
    · exact h
    · refine ⟨fun q hq => ?_, fun q r hr => ?_⟩
      · -- the new head is what the old one was linked to
        rw [href]
        exact h.link p q (hhd ▸ hq)
      · -- the page that was taken has no link any more
        rw [href]
        rw [hlink] at hr
        by_cases hqp : q = p
        · rw [hqp, Function.update_self] at hr
          cases hr
        · rw [Function.update_of_ne hqp] at hr
          exact h.link q r hr
  | pageFree pp =>
    obtain ⟨-, h0, hhd, hlink, href⟩ := pageFree_list hs.2
    refine ⟨fun q hq => ?_, fun q r hr => ?_⟩
    · -- `page_free` has looked at the counter of the new head
      rw [hhd, Option.some.injEq] at hq
      rw [href, ← hq]
      exact h0
    · rw [href]
      rw [hlink] at hr
      by_cases hqp : q = pp
      · rw [hqp, Function.update_self] at hr
        exact h.head r hr
      · rw [Function.update_of_ne hqp] at hr
        exact h.link q r hr

/-- A double free is noticed but for the last page of the list. -/
theorem PoolInv.caught_iff (h : PoolInv σ) (pp : ℕ) : Caught σ pp ↔ ¬LastFree σ pp := by
  constructor
  · -- the last page of the list looks like a page that is in use
    rintro hc ⟨hon, hlink⟩
    have herr := hc (Or.inl hon)
    rw [pageFree, if_neg] at herr
    · cases herr
    · rw [not_or, not_not, not_not]
      exact ⟨hlink, h.ref_eq hon⟩
  · -- every other page of the list has a link
    intro hlast hbad
    rw [pageFree, if_pos]
    rcases hbad with hon | href
    · exact Or.inl fun hlink => hlast ⟨hon, hlink⟩
    · exact Or.inr href

/-! ### Careful runs -/

/-- The free list is a chain without page `p`. -/
def Handed (p : ℕ) (σ : State) : Prop := ∃ l, Chain σ.link σ.pageFreeList l ∧ p ∉ l

/-- Taking the first page off a chain. -/
theorem pageAlloc_chain {flags : Word} {p : ℕ} {l : List ℕ}
    (hs : pageAlloc B flags σ = .ok (some p, σ')) (hl : Chain σ.link σ.pageFreeList l) :
    ∃ t, l = p :: t ∧ Chain σ'.link σ'.pageFreeList t := by
  obtain ⟨hnone, -⟩ | ⟨q, hq, hhd, hhd', hlink, -⟩ := pageAlloc_list hs
  · cases hnone
  · obtain rfl := Option.some.inj hq
    rw [hhd] at hl
    obtain ⟨t, rfl, -⟩ := Chain.some_iff.mp hl
    exact ⟨t, rfl, by rw [hlink, hhd']; exact hl.pop⟩

/-- Freeing a page that is not the last one of a chain pushes it. -/
theorem pageFree_chain {pp : ℕ} {l : List ℕ} (hs : pageFree pp σ = .ok σ')
    (hl : Chain σ.link σ.pageFreeList l) (hlast : ¬LastFree σ pp) :
    pp ∉ l ∧ Chain σ'.link σ'.pageFreeList (pp :: l) := by
  obtain ⟨hnone, -, hhd, hlink, -⟩ := pageFree_list hs
  have hpp : pp ∉ l := fun hmem => hlast ⟨hl.reaches_iff.mpr hmem, hnone⟩
  rw [hhd, hlink]
  exact ⟨hpp, hl.push hpp⟩

/-- A careful call keeps a chain, and only `page_free(p)` can bring page `p` back to it. -/
theorem PoolStep.chain {op : PoolOp} {l : List ℕ} (hs : PoolStep B σ op σ')
    (hl : Chain σ.link σ.pageFreeList l) (hc : Careful σ op) :
    ∃ l', Chain σ'.link σ'.pageFreeList l' ∧ ∀ p ∈ l', p ∈ l ∨ op = .pageFree p := by
  cases op with
  | pageAlloc flags page =>
    cases page with
    | none =>
      obtain ⟨-, -, rfl⟩ | ⟨p, hp, -⟩ := pageAlloc_list hs
      · exact ⟨l, hl, fun p hp => Or.inl hp⟩
      · cases hp
    | some q =>
      obtain ⟨t, rfl, ht⟩ := pageAlloc_chain hs hl
      exact ⟨t, ht, fun p hp => Or.inl (List.mem_cons_of_mem _ hp)⟩
  | pageFree pp =>
    refine ⟨pp :: l, (pageFree_chain hs.2 hl (hc pp rfl)).2, fun p hp => ?_⟩
    rcases List.mem_cons.mp hp with rfl | hp
    · exact Or.inr rfl
    · exact Or.inl hp

theorem PoolStep.acyclic {op : PoolOp} (hs : PoolStep B σ op σ') (h : Acyclic σ)
    (hc : Careful σ op) : Acyclic σ' := by
  obtain ⟨l, hl⟩ := h
  obtain ⟨l', hl', -⟩ := hs.chain hl hc
  exact ⟨l', hl'⟩

/-- Freeing the last page of the list closes a circle. -/
theorem PoolStep.careful {op : PoolOp} (hs : PoolStep B σ op σ') (h : Acyclic σ') :
    Careful σ op := by
  rintro pp rfl hlast
  obtain ⟨l, hl⟩ := h
  obtain ⟨-, -, hhd, hlink, -⟩ := pageFree_list hs.2
  -- the page is linked to the old head, which leads to the page
  rw [hhd, hlink] at hl
  exact hlast.1.not_chain hl

/-- A page that was handed out does not come back without `page_free`. -/
theorem Handed.step {op : PoolOp} {p : ℕ} (h : Handed p σ) (hs : PoolStep B σ op σ')
    (hc : Careful σ op ∧ op ≠ .pageFree p) : Handed p σ' := by
  obtain ⟨l, hl, hp⟩ := h
  obtain ⟨l', hl', hmem⟩ := hs.chain hl hc.1
  exact ⟨l', hl', fun hin => (hmem p hin).elim hp hc.2⟩

/-- In a careful run `page_alloc` does not return a page twice. -/
theorem Acyclic.noDoubleAlloc {ops : List PoolOp} (h : Acyclic σ)
    (hrun : Run (PoolStep B) σ ops σ') (hc : Run.Meets (PoolStep B) σ ops Careful) :
    NoDoubleAlloc ops := by
  rintro before between after flags flags' p rfl
  by_contra hfree
  -- the run up to the first call, and the one between the two
  obtain ⟨σ₁, hbefore, hrest⟩ := Run.append_iff.mp hrun
  obtain ⟨σ₂, hfirst, hrest'⟩ := Run.cons_iff.mp hrest
  obtain ⟨σ₃, hbetween, hrest''⟩ := Run.append_iff.mp hrest'
  obtain ⟨σ₄, hsecond, -⟩ := Run.cons_iff.mp hrest''
  obtain ⟨l, hl⟩ := Run.invariant_of_meets (fun _ _ _ h hs hc => hs.acyclic h hc) hbefore h hc.take
  -- the first call takes the page off the list
  obtain ⟨t, rfl, ht⟩ := pageAlloc_chain hfirst hl
  have hhanded : Handed p σ₂ := ⟨t, ht, (List.nodup_cons.mp hl.nodup).1⟩
  have hmid : Run.Meets (PoolStep B) σ₂ between Careful :=
    ((hc.drop hbefore).tail hfirst).take
  have hQ : Run.Meets (PoolStep B) σ₂ between fun σ op => Careful σ op ∧ op ≠ .pageFree p := by
    rintro ops₁ op ops₂ s₁ rfl hr
    refine ⟨hmid ops₁ op ops₂ s₁ rfl hr, ?_⟩
    rintro rfl
    exact hfree (by simp)
  -- the page is still handed out at the second call, which finds it on the list
  obtain ⟨l', hl', hnot⟩ :=
    Run.invariant_of_meets (fun _ _ _ h hs hc => h.step hs hc) hbetween hhanded hQ
  obtain ⟨t', rfl, -⟩ := pageAlloc_chain hsecond hl'
  exact hnot List.mem_cons_self

/-! ### From `page_init` on -/

theorem Booted.poolInv (h : Booted B σ₀) : PoolInv (pageInit B σ₀) ∧ Acyclic (pageInit B σ₀) := by
  obtain ⟨free, hinit⟩ := pageInit_loop h B.npages
  rw [show (List.range B.npages).foldl (B.pageInitStep B.bootFree) σ₀ = pageInit B σ₀ from rfl] at hinit
  have href {p : ℕ} (hp : p ∈ free) : (pageInit B σ₀).ref p = 0#16 :=
    hinit.ref_free p ((hinit.mem_free p).mp hp).2
  refine ⟨⟨fun p hp => ?_, fun q p hp => ?_⟩, free, hinit.chain⟩
  · apply href
    have hchain := hinit.chain
    rw [hp] at hchain
    obtain ⟨t, rfl, -⟩ := Chain.some_iff.mp hchain
    exact List.mem_cons_self
  · -- only a page of the list has a link
    have hq : q ∈ free := by
      by_contra hq
      rw [hinit.link_none q hq] at hp
      cases hp
    exact href (hinit.chain.next_mem hq hp)

/-- In every run of `page_alloc` and `page_free` from `page_init` on, a double free of a page is
caught unless it is the last page of the list; and as long as no call frees that page, and not
longer, the list has no circle, and no page is handed out twice. -/
theorem pageFree_caught_iff (h₀ : Booted B σ₀) {ops : List PoolOp}
    (hrun : Run (PoolStep B) (pageInit B σ₀) ops σ) :
    (∀ pp, Caught σ pp ↔ ¬LastFree σ pp) ∧
    (Run.Always (PoolStep B) (pageInit B σ₀) ops Acyclic ↔
      Run.Meets (PoolStep B) (pageInit B σ₀) ops Careful) ∧
    (Run.Meets (PoolStep B) (pageInit B σ₀) ops Careful → NoDoubleAlloc ops) := by
  obtain ⟨hpool, hacyclic⟩ := h₀.poolInv
  refine ⟨?_, ?_, hacyclic.noDoubleAlloc hrun⟩
  · have hinv := hrun.invariant (P := PoolInv) (fun _ _ _ h hs => h.step hs) hpool
    exact hinv.caught_iff
  · exact Run.always_iff_meets (fun _ _ _ _ h₁ h₂ => h₁.deterministic h₂)
      (fun _ _ _ h hs hc => hs.acyclic h hc) (fun _ h => h)
      (fun _ _ _ hs h => hs.careful h) hrun hacyclic

/-- A page of the small machine is handed out and given back. -/
theorem pageFree_caught_smallMachine : ∃ p σ,
    Run (PoolStep smallMachine) (pageInit smallMachine smallMemory)
      [.pageAlloc 0#32 (some p), .pageFree p] σ ∧
    ∀ pp, Caught σ pp ↔ ¬LastFree σ pp := by
  obtain ⟨free, hinv, hmem, -⟩ := pageInit_spec smallMemory_booted
  cases free with
  | nil => exact absurd ((hmem 1).mpr (by decide)) (by simp)
  | cons p free =>
    obtain ⟨σ₁, halloc, hinv₁, hslots, -⟩ := pageAlloc_spec hinv 0#32
    have hm : smallMachine.Managed p := (hmem p).mp List.mem_cons_self
    have hp : p ∉ free := (List.nodup_cons.mp hinv.chain.nodup).1
    have h0 := hinv.free_unref p List.mem_cons_self
    obtain ⟨σ₂, hfree, -⟩ := pageFree_spec hinv₁ hm hp (by
      rw [refs_eq_of_slots hslots]
      exact h0)
    have hrun : Run (PoolStep smallMachine) (pageInit smallMachine smallMemory)
        [.pageAlloc 0#32 (some p), .pageFree p] σ₂ :=
      .cons halloc (.cons ⟨hm.1, hfree⟩ .nil)
    exact ⟨p, σ₂, hrun, (pageFree_caught_iff smallMemory_booted hrun).1⟩

/-- The first page that `page_init` frees ends up last on the list. -/
theorem smallMachine_lastFree : LastFree (pageInit smallMachine smallMemory) 1 := by
  obtain ⟨free, hinit⟩ := pageInit_loop smallMemory_booted smallMachine.npages
  refine ⟨hinit.chain.reaches_iff.mpr ((hinit.mem_free 1).mpr (by decide)), ?_⟩
  have hpages (n : ℕ) :
      ((List.range (2 + n)).foldl (smallMachine.pageInitStep smallMachine.bootFree) smallMemory).pages 1 =
        ⟨none, 0#16⟩ := by
    induction n with
    | zero => rfl
    | succ n ih =>
      rw [← add_assoc, List.range_succ, List.foldl_append, List.foldl_cons, List.foldl_nil]
      exact (MemSize.pageInitStep_pages (M := smallMachine.toMemSize) (by omega)).trans ih
  rw [State.link, pageInit, MemSize.pageInit, show smallMachine.npages = 2 + 1022 from rfl, hpages]

/-- Right after `page_init` page 1 can be freed although it is free, and the list has no end
any more. -/
theorem pageFree_unnoticed : OnList (pageInit smallMachine smallMemory) 1 ∧
    ¬Caught (pageInit smallMachine smallMemory) 1 ∧
    ∃ σ, PoolStep smallMachine (pageInit smallMachine smallMemory) (.pageFree 1) σ ∧
      ¬Acyclic σ := by
  have hlast := smallMachine_lastFree
  have hinv := smallMemory_booted.poolInv.1
  refine ⟨hlast.1, fun hc => (hinv.caught_iff 1).mp hc hlast, ?_⟩
  have hok : pageFree 1 (pageInit smallMachine smallMemory) = .ok
      { (pageInit smallMachine smallMemory).setLink 1
          (pageInit smallMachine smallMemory).pageFreeList with pageFreeList := some 1 } := by
    rw [pageFree, if_neg]
    rw [not_or, not_not, not_not]
    exact ⟨hlast.2, hinv.ref_eq hlast.1⟩
  have hstep : PoolStep smallMachine (pageInit smallMachine smallMemory) (.pageFree 1) _ :=
    ⟨by decide, hok⟩
  exact ⟨_, hstep, fun h => hstep.careful h 1 rfl hlast⟩

end Jos
