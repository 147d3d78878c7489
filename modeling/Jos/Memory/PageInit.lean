import Jos.Kern.Detect
import Jos.Memory.PageInv

/-!
# The loop of `page_init`

`page_init` goes through all pages once and reserves or releases each of them. `PageInited` is
what it has done after the pages below `n`, whatever the detected sizes are, wherever the boot
allocator has stopped and whatever `pages` held before.
-/

namespace Jos

namespace MemSize

variable {M : MemSize} {bootFree : Word} {σ : State}

/-- `page_init` reserves page `i`. -/
def Reserved (M : MemSize) (bootFree : Word) (i : ℕ) : Prop :=
  i = 0 ∨ ¬(1 ≤ i ∧ i < M.npagesBasemem) ∧
    ((iophysmem / pgsize).toNat ≤ i ∧ i < (extphysmem / pgsize).toNat ∨
      (extphysmem / pgsize).toNat ≤ i ∧ i < ((bootFree - kernbase) / pgsize).toNat)

instance : DecidablePred (M.Reserved bootFree) := fun i => by
  unfold Reserved
  infer_instance

theorem pageInitStep_reserved {i : ℕ} (h : M.Reserved bootFree i) :
    M.pageInitStep bootFree σ i = (σ.setRef i 1#16).setLink i none := by
  simp only [pageInitStep]
  rcases h with h0 | ⟨hbase, hio | hext⟩
  · rw [if_pos h0]
  · rw [if_neg hbase, if_pos hio, ite_self]
  · rw [if_neg hbase, if_pos hext, ite_self, ite_self]

theorem pageInitStep_free {i : ℕ} (h : ¬M.Reserved bootFree i) :
    M.pageInitStep bootFree σ i =
      { (σ.setRef i 0#16).setLink i σ.pageFreeList with pageFreeList := some i } := by
  unfold pageInitStep
  rw [Reserved, not_or] at h
  rw [if_neg h.1]
  by_cases hb : 1 ≤ i ∧ i < M.npagesBasemem
  · rw [if_pos hb]
  · have hrest := not_or.mp fun hc => h.2 ⟨hb, hc⟩
    rw [if_neg hb, if_neg hrest.1, if_neg hrest.2]

/-- What `page_init` has done after the pages below `n`. -/
structure PageInited (M : MemSize) (bootFree : Word) (n : ℕ) (σ σ' : State) (free : List ℕ) :
    Prop where
  chain : Chain σ'.link σ'.pageFreeList free
  mem_free : ∀ p, p ∈ free ↔ p < n ∧ ¬M.Reserved bootFree p
  reserved : ∀ p < n, M.Reserved bootFree p → σ'.link p = none ∧ σ'.ref p = 1#16
  ref_free : ∀ p < n, ¬M.Reserved bootFree p → σ'.ref p = 0#16
  beyond : ∀ p, n ≤ p → σ'.pages p = σ.pages p
  same : SameData σ σ'

/-- The body of the loop writes one element of `pages`. -/
theorem pageInitStep_pages {i p : ℕ} (hp : p ≠ i) :
    (M.pageInitStep bootFree σ i).pages p = σ.pages p := by
  by_cases hr : M.Reserved bootFree i
  · rw [pageInitStep_reserved hr]
    simp [State.setLink, State.setRef, hp]
  · rw [pageInitStep_free hr]
    simp [State.setLink, State.setRef, hp]

/-- So it leaves the pages it has passed already as they are. -/
theorem pageInitStep_kept {n p : ℕ} (hp : p < n) :
    (M.pageInitStep bootFree σ n).link p = σ.link p ∧
      (M.pageInitStep bootFree σ n).ref p = σ.ref p := by
  rw [State.link, State.ref, pageInitStep_pages hp.ne]
  exact ⟨rfl, rfl⟩

theorem pageInitStep_same (i : ℕ) : SameData σ (M.pageInitStep bootFree σ i) := by
  by_cases hr : M.Reserved bootFree i
  · rw [pageInitStep_reserved hr]
    exact ⟨rfl, rfl, rfl, rfl, rfl⟩
  · rw [pageInitStep_free hr]
    exact ⟨rfl, rfl, rfl, rfl, rfl⟩

namespace PageInited

variable {n : ℕ} {σ' : State} {free : List ℕ}

theorem notMem (h : PageInited M bootFree n σ σ' free) : n ∉ free := fun hc => by
  have hlt := ((h.mem_free n).mp hc).1
  omega

/-- A reserved page stays off the list. -/
theorem step_reserved (h : PageInited M bootFree n σ σ' free) (hr : M.Reserved bootFree n) :
    PageInited M bootFree (n + 1) σ (M.pageInitStep bootFree σ' n) free where
  chain := by
    rw [pageInitStep_reserved hr]
    change Chain ((σ'.setRef n 1#16).setLink n none).link σ'.pageFreeList free
    rw [link_setLink, link_setRef]
    exact h.chain.congr fun p hp => Function.update_of_ne (ne_of_mem_of_not_mem hp h.notMem) _ _
  mem_free p := by
    rw [h.mem_free p]
    constructor
    · exact fun hp => ⟨by omega, hp.2⟩
    · intro hp
      have hne : p ≠ n := fun hc => hp.2 (hc ▸ hr)
      exact ⟨by omega, hp.2⟩
  -- the page is counted as used and its link cleared; the list stays as it is
  reserved p hp hres := by
    by_cases hpn : p = n
    · subst hpn
      rw [pageInitStep_reserved hr]
      simp
    · rw [(pageInitStep_kept (by omega)).1, (pageInitStep_kept (by omega)).2]
      exact h.reserved p (by omega) hres
  ref_free p hp hres := by
    have hpn : p ≠ n := fun hc => hres (hc ▸ hr)
    rw [(pageInitStep_kept (by omega)).2]
    exact h.ref_free p (by omega) hres
  beyond p hp := by
    rw [pageInitStep_pages (by omega)]
    exact h.beyond p (by omega)
  same := h.same.trans (pageInitStep_same n)

/-- Any other page is pushed. -/
theorem step_free (h : PageInited M bootFree n σ σ' free) (hr : ¬M.Reserved bootFree n) :
    PageInited M bootFree (n + 1) σ (M.pageInitStep bootFree σ' n) (n :: free) where
  chain := by
    rw [pageInitStep_free hr]
    change Chain ((σ'.setRef n 0#16).setLink n σ'.pageFreeList).link (some n) (n :: free)
    rw [link_setLink, link_setRef]
    exact h.chain.push h.notMem
  mem_free p := by
    rw [List.mem_cons, h.mem_free p]
    constructor
    · rintro (rfl | hp)
      · exact ⟨by omega, hr⟩
      · exact ⟨by omega, hp.2⟩
    · intro hp
      by_cases hpn : p = n
      · exact Or.inl hpn
      · exact Or.inr ⟨by omega, hp.2⟩
  reserved p hp hres := by
    have hpn : p ≠ n := fun hc => hr (hc ▸ hres)
    rw [(pageInitStep_kept (by omega)).1, (pageInitStep_kept (by omega)).2]
    exact h.reserved p (by omega) hres
  ref_free p hp hres := by
    by_cases hpn : p = n
    · -- the page of this round
      subst hpn
      rw [pageInitStep_free hr]
      change ((σ'.setRef p 0#16).setLink p σ'.pageFreeList).ref p = 0#16
      simp
    · rw [(pageInitStep_kept (by omega)).2]
      exact h.ref_free p (by omega) hres
  beyond p hp := by
    rw [pageInitStep_pages (by omega)]
    exact h.beyond p (by omega)
  same := h.same.trans (pageInitStep_same n)

end PageInited

/-- The loop of `page_init`, by induction on the pages it has passed. -/
theorem pageInit_loop (M : MemSize) (bootFree : Word) (h : σ.pageFreeList = none) (n : ℕ) :
    ∃ free, PageInited M bootFree n σ ((List.range n).foldl (M.pageInitStep bootFree) σ) free := by
  induction n with
  | zero =>
    refine ⟨[], ?_, by simp, fun p hp => absurd hp (by omega), fun p hp => absurd hp (by omega),
      fun _ _ => rfl, rfl, rfl, rfl, rfl, rfl⟩
    rw [List.range_zero, List.foldl_nil, h]
    exact .nil
  | succ n ih =>
    obtain ⟨free, hn⟩ := ih
    rw [List.range_succ, List.foldl_append, List.foldl_cons, List.foldl_nil]
    by_cases hr : M.Reserved bootFree n
    · exact ⟨free, hn.step_reserved hr⟩
    · exact ⟨n :: free, hn.step_free hr⟩

/-- What `page_init` has done at its end. -/
theorem pageInit_spec (M : MemSize) (bootFree : Word) (h : σ.pageFreeList = none) :
    ∃ free, PageInited M bootFree M.npages σ (M.pageInit bootFree σ) free :=
  pageInit_loop M bootFree h M.npages

end MemSize

end Jos
