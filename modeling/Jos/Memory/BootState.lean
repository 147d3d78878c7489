import Jos.Environment.Frame
import Jos.Memory.EnvOps
import Jos.Memory.PageInit

/-!
# The state the kernel boots into

`Booted` is what memory looks like when `mem_init` calls `page_init`: the arrays
`pages` and `envs` are zeroed, both free lists are null, and `kern_pgdir` holds
the self-referring `UVPT` entry and nothing else. Everything else is arbitrary.

From there `page_init` builds the page invariant, with every page it does not
reserve on the free list (`pageInit_spec`), and `env_init` builds the environment
table with all slots free and in order (`envInit_spec`). Both are loops that push
on a free list: `pageInit_loop` and `envInit_chain` say what a part of each loop
has done.
-/

namespace Jos

variable {B : Boot} {σ : State}

/-- Memory as `mem_init` has prepared it for `page_init`. -/
structure Booted (B : Boot) (σ : State) : Prop where
  pages : ∀ p, σ.pages p = ⟨none, 0#16⟩
  pageFreeList : σ.pageFreeList = none
  kernDir : σ.mem B.kernFrame = Function.update (fun _ => 0#32) (pdx uvpt)
    ((B.kernPgdir - kernbase) ||| pteU ||| pteP)
  envs : ∀ e, σ.envs e = {}
  envFreeList : σ.envFreeList = none

/-! ### `page_init` -/

/-- What `page_init` has done after the pages below `n`. -/
structure PageInited (B : Boot) (n : ℕ) (σ σ' : State) (free : List ℕ) : Prop where
  chain : Chain σ'.link σ'.pageFreeList free
  mem_free : ∀ p, p ∈ free ↔ p < n ∧ ¬B.Reserved p
  link_none : ∀ p, p ∉ free → σ'.link p = none
  ref_free : ∀ p, ¬B.Reserved p → σ'.ref p = 0#16
  same : SameData σ σ'

/-- The loop of `page_init` from the zeroed array `pages`. -/
theorem pageInit_loop (h : Booted B σ) (n : ℕ) :
    ∃ free, PageInited B n σ ((List.range n).foldl (B.pageInitStep B.bootFree) σ) free := by
  obtain ⟨free, hn⟩ := B.toMemSize.pageInit_loop B.bootFree h.pageFreeList n
  refine ⟨free, hn.chain, hn.mem_free, ?_, ?_, hn.same⟩
  · intro p hp
    by_cases hlt : p < n
    · have hr : B.toMemSize.Reserved B.bootFree p := by
        by_contra hr
        exact hp ((hn.mem_free p).mpr ⟨hlt, hr⟩)
      exact (hn.reserved p hlt hr).1
    · rw [State.link]
      exact (congrArg PageInfo.ppLink (hn.beyond p (by omega))).trans (by rw [h.pages])
  · intro p hp
    by_cases hlt : p < n
    · exact hn.ref_free p hlt hp
    · rw [State.ref]
      exact (congrArg PageInfo.ppRef (hn.beyond p (by omega))).trans (by rw [h.pages])

/-- Nothing is mapped anywhere yet. -/
theorem Booted.slots_none (h : Booted B σ) (s : Slot) : slots B σ s = none := by
  -- the only entry of `kern_pgdir` is the untracked one, and no environment has a directory
  have hkern : ∀ i, Tracked none i → entryOf (σ.mem B.kernFrame i) = none := by
    intro i hi
    rw [h.kernDir, Function.update_of_ne hi]
    exact entryOf_zero
  have henv : ∀ e, dirFrame B σ (some e) = none := fun e => dirFrame_free (by rw [h.envs])
  cases s with
  | dir e => exact slots_of_dirFrame_none (henv e)
  | pde a i =>
    cases a with
    | none =>
      by_cases hi : Tracked none i
      · rw [slots_pde rfl hi, hkern i hi]
      · exact if_neg hi
    | some e => exact slots_of_dirFrame_none (henv e)
  | pte a i j =>
    cases a with
    | none =>
      by_cases hi : i.val < 955
      · exact slots_pte_of_none rfl (hkern i (tracked_of_lt hi none))
      · exact if_neg hi
    | some e => exact slots_of_dirFrame_none (henv e)

/-- `page_init` establishes the page invariant, with every page it does not reserve
on the free list. -/
theorem pageInit_spec (h : Booted B σ) :
    ∃ free, PageInv B (pageInit B σ) 0 free ∧ (∀ p, p ∈ free ↔ B.Managed p) ∧
      SameData σ (pageInit B σ) := by
  obtain ⟨free, hinit⟩ := pageInit_loop h B.npages
  rw [show (List.range B.npages).foldl (B.pageInitStep B.bootFree) σ = pageInit B σ from rfl] at hinit
  have hslots : ∀ s, slotRef B (pageInit B σ) s = none := by
    intro s
    rw [slotRef, hinit.same.slots, h.slots_none s]
    rfl
  have hcount : ∀ p, refCount (slotRef B (pageInit B σ)) p = 0 := by
    intro p
    apply refCount_eq_zero.mpr
    intro s hs
    rw [hslots s] at hs
    cases hs
  -- nothing refers to any page yet
  refine ⟨free, ⟨hinit.chain, hinit.link_none, ?_, ?_, ?_, ?_, ?_, ?_⟩, hinit.mem_free,
    hinit.same⟩
  · exact fun p hp => (hinit.mem_free p).mp hp
  · intro p _
    rw [hcount p]
    rfl
  · intro p hp
    rw [hcount p, hinit.ref_free p hp.2]
    rfl
  · intro s p hs
    rw [hslots s] at hs
    cases hs
  · exact fun p hp => absurd rfl hp
  · intro s s' p _ hs _
    rw [hslots s] at hs
    cases hs

/-! ### `env_init` -/

/-- The loop of `env_init` over the slots `l`, by induction on those it still has to
visit: each one is pushed, so the list comes out reversed. -/
theorem envInit_chain (l : List (Fin nenv)) (hl : l.Nodup) {efree : List (Fin nenv)}
    (hdis : ∀ e ∈ l, e ∉ efree)
    (hchain : Chain (fun e => (σ.envs e).envLink) σ.envFreeList efree) :
    Chain (fun e => ((l.foldl envInitStep σ).envs e).envLink) (l.foldl envInitStep σ).envFreeList
      (l.reverse ++ efree) := by
  -- each step pushes an environment, so the list comes out in reverse order
  induction l generalizing σ efree with
  | nil => exact hchain
  | cons e l ih =>
    obtain ⟨he, hl⟩ := List.nodup_cons.mp hl
    have hnew : e ∉ efree := hdis e List.mem_cons_self
    set σ₁ := envInitStep σ e with hσ₁
    have hlinks : (fun e' => (σ₁.envs e').envLink) =
        Function.update (fun e' => (σ.envs e').envLink) e σ.envFreeList := by
      ext e'
      rw [envInitStep_envs]
      by_cases hee : e' = e
      · rw [hee, Function.update_self, Function.update_self]
      · rw [Function.update_of_ne hee, Function.update_of_ne hee]
    have hchain₁ : Chain (fun e' => (σ₁.envs e').envLink) σ₁.envFreeList (e :: efree) := by
      rw [hlinks]
      exact hchain.push hnew
    have hdis₁ : ∀ e' ∈ l, e' ∉ e :: efree := by
      intro e' he'
      rw [List.mem_cons, not_or]
      exact ⟨ne_of_mem_of_not_mem he' he, hdis e' (List.mem_cons_of_mem _ he')⟩
    rw [List.foldl_cons, ← hσ₁, List.reverse_cons, List.append_assoc]
    exact ih hl hdis₁ hchain₁

theorem EnvInv.of_loop {l : List (Fin nenv)} (hall : ∀ e, e ∈ l) (hl : l.Nodup)
    (h : σ.envFreeList = none) : EnvInv (l.foldl envInitStep σ) l.reverse := by
  have hnil : Chain (fun e => (σ.envs e).envLink) σ.envFreeList [] := by
    rw [h]
    exact .nil
  have hchain := envInit_chain l hl (fun _ _ => List.not_mem_nil) hnil
  rw [List.append_nil] at hchain
  have hin := EnvInited.of_loop hall σ
  exact ⟨hchain, fun e => iff_of_true (List.mem_reverse.mpr (hall e)) (hin.status e),
    fun e he => absurd (hin.status e) he⟩

/-- `env_init` on a table without a free list: all slots are free, in order. -/
theorem envInit_spec (h : σ.envFreeList = none) :
    EnvInv (envInit σ) (List.finRange nenv) := by
  have hinv := EnvInv.of_loop (fun e => List.mem_reverse.mpr (List.mem_finRange e))
    (List.nodup_reverse.mpr (List.nodup_finRange nenv)) h
  rw [List.reverse_reverse] at hinv
  unfold envInit
  exact hinv

end Jos
