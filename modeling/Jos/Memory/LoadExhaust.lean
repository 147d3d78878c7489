import Jos.Memory.ImageLoader
import Jos.Memory.TlbLoad
import Jos.Memory.UserAccess
import Mathlib.Order.Interval.Finset.Nat

/-!
# Loading a program when memory runs out

`region_alloc` takes a page and maps it, and mapping it may take a second page for the page
table. If the first one is missing it panics. If the second one is missing `page_insert` returns
`-E_NO_MEM`, which nobody looks at, and the page is lost; but then the free list is empty, and
the next page that is asked for makes `region_alloc` panic after all.

`LoadInv` is what holds as long as nothing has gone wrong. It counts: the free pages, the mapped
pages and the page tables of the environment add up to a constant, so it is known from the number
of free pages at the start where the list runs dry. Every operation either keeps the invariant or
leaves an empty list (`LoadInv.regionAlloc`, `LoadInv.placeSegment`, `LoadInv.placeSegments`).
-/

namespace Jos

variable {B : Boot} {σ σ' σ₀ σ₁ : State} {cpu c : ℕ} {e : Fin nenv} {free free' : List ℕ}
  {efree : List (Fin nenv)} {O : Set ℕ} {M T : Finset ℕ} {va : Word}

/-- The directory slots of a set of virtual pages. -/
def tablesOf (M : Finset ℕ) : Finset ℕ := M.image (· / 1024)

/-! ### The slots of the new environment -/

/-- What the slots `f` say about the environment `e`: it has the page tables `T` and maps the
virtual pages `M`, for reading and writing; nothing else refers to its pages; and what was free
in the beginning (`O`) and is not on the list `free` belongs to it. -/
structure Loaded (e : Fin nenv) (O : Set ℕ) (f : Slot → Option (ℕ × BitVec 12)) (free : List ℕ)
    (M T : Finset ℕ) : Prop where
  pte : ∀ i j : Fin 1024, (f (.pte (some e) i j)).map Prod.snd =
    if i.val * 1024 + j.val ∈ M then some 7#12 else none
  pde : ∀ i : Fin 1024, i.val < 955 → (f (.pde (some e) i)).map Prod.snd =
    if i.val ∈ T then some tablePerm else none
  sole : ∀ s p, s.owner = some e → (f s).map Prod.fst = some p →
    refCount (fun s => (f s).map Prod.fst) p = 1
  held : ∀ p ∈ O, p ∉ free → ∃ s : Slot, s.owner = some e ∧ (f s).map Prod.fst = some p

namespace Loaded

variable {f : Slot → Option (ℕ × BitVec 12)}

theorem map_fst_update (f : Slot → Option (ℕ × BitVec 12)) (s : Slot) (u : ℕ × BitVec 12) :
    (fun s' => (Function.update f s (some u) s').map Prod.fst) =
      Function.update (fun s' => (f s').map Prod.fst) s (some u.1) :=
  Function.comp_update (Option.map Prod.fst) f s (some u)

/-- A slot of the environment gets a page that nothing refers to; the page it had goes to the
free list. -/
theorem fill (h : Loaded e O f free M T) {s : Slot} {p : ℕ} {π : BitVec 12}
    (hs : s.owner = some e) (hp : refCount (fun s => (f s).map Prod.fst) p = 0)
    (hfree : ∀ q ∈ free, q ∈ free' ∨ q = p) (hold : ∀ q, (f s).map Prod.fst = some q → q ∈ free') :
    (∀ s' q, s'.owner = some e → (Function.update f s (some (p, π)) s').map Prod.fst = some q →
      refCount (fun s' => (Function.update f s (some (p, π)) s').map Prod.fst) q = 1) ∧
    ∀ q ∈ O, q ∉ free' → ∃ s' : Slot, s'.owner = some e ∧
      (Function.update f s (some (p, π)) s').map Prod.fst = some q := by
  constructor
  · -- the new page is referred to by this slot alone
    intro s' q hs' hq
    rw [map_fst_update]
    refine refCount_update_eq_one (j := s') hp (h.sole s' q hs') ?_
    rw [← map_fst_update f s (p, π)]
    exact hq
  · intro q hq hnot
    by_cases hqp : q = p
    · refine ⟨s, hs, ?_⟩
      rw [Function.update_self, hqp]
      rfl
    · have hqfree : q ∉ free := fun hc => (hfree q hc).elim hnot hqp
      obtain ⟨s', hs', hq'⟩ := h.held q hq hqfree
      refine ⟨s', hs', ?_⟩
      rw [Function.update_of_ne, hq']
      rintro rfl
      exact hnot (hold q hq')

/-- A new page table. -/
theorem addTable (h : Loaded e O f free M T) {i : Fin 1024} {t : ℕ} (hi : i.val < 955)
    (hnew : i.val ∉ T) (ht : refCount (fun s => (f s).map Prod.fst) t = 0)
    (hfree : ∀ q ∈ free, q ∈ free' ∨ q = t) :
    Loaded e O (Function.update f (.pde (some e) i) (some (t, tablePerm))) free' M
      (insert i.val T) := by
  -- the slot was empty, so no reference is lost
  have hnone : f (.pde (some e) i) = none := by
    have hpde := h.pde i hi
    rw [if_neg hnew] at hpde
    exact Option.map_eq_none_iff.mp hpde
  obtain ⟨hsole, hheld⟩ := h.fill (π := tablePerm) rfl ht hfree fun q hq => by
    rw [hnone] at hq
    cases hq
  refine ⟨?_, ?_, hsole, hheld⟩
  · intro k j
    rw [Function.update_of_ne (by simp)]
    exact h.pte k j
  · intro k hk
    by_cases hki : k = i
    · rw [hki, Function.update_self, if_pos (Finset.mem_insert_self _ _)]
      rfl
    · have hval : k.val ≠ i.val := fun hc => hki (Fin.ext hc)
      rw [Function.update_of_ne (by simpa using hki), h.pde k hk]
      simp only [Finset.mem_insert, hval, false_or]

/-- A new mapping, or one in the place of another. -/
theorem addPage (h : Loaded e O f free M T) {i j : Fin 1024} {p : ℕ}
    (hp : refCount (fun s => (f s).map Prod.fst) p = 0)
    (hfree : ∀ q ∈ free, q ∈ free' ∨ q = p)
    (hold : ∀ q, (f (.pte (some e) i j)).map Prod.fst = some q → q ∈ free') :
    Loaded e O (Function.update f (.pte (some e) i j) (some (p, 7#12))) free'
      (insert (i.val * 1024 + j.val) M) T := by
  obtain ⟨hsole, hheld⟩ := h.fill (π := 7#12) rfl hp hfree hold
  refine ⟨?_, ?_, hsole, hheld⟩
  · intro k l
    by_cases hkl : k = i ∧ l = j
    · rw [hkl.1, hkl.2, Function.update_self, if_pos (Finset.mem_insert_self _ _)]
      rfl
    · -- distinct slots have distinct page numbers
      have hval : k.val * 1024 + l.val ≠ i.val * 1024 + j.val := by
        intro hc
        exact hkl ⟨Fin.ext (by omega), Fin.ext (by omega)⟩
      rw [Function.update_of_ne (by simpa using hkl), h.pte k l]
      simp only [Finset.mem_insert, hval, false_or]
  · intro k hk
    rw [Function.update_of_ne (by simp)]
    exact h.pde k hk

/-- The directory has the page tables `T`. -/
theorem mem_tables_iff (h : Loaded e O (slots B σ) free M T) {d : ℕ}
    (hd : dirFrame B σ (some e) = some d) {i : Fin 1024} (hi : i.val < 955) :
    i.val ∈ T ↔ entryOf (σ.mem d i) ≠ none := by
  have hpde := h.pde i hi
  rw [slots_pde hd (tracked_of_lt hi _)] at hpde
  by_cases ht : i.val ∈ T
  · rw [if_pos ht] at hpde
    refine iff_of_true ht fun hc => ?_
    rw [hc] at hpde
    cases hpde
  · rw [if_neg ht, Option.map_eq_none_iff] at hpde
    exact iff_of_false ht fun hc => hc hpde

/-- The free list after a page without references has been mapped: the page that was mapped there
before was mapped nowhere else. -/
theorem freeAfterInsert_eq (h : Loaded e O (slots B σ) free M T) {p : ℕ} (hp : refs B σ p = 0)
    (i j : Fin 1024) (rest : List ℕ) :
    (i.val * 1024 + j.val ∉ M ∧ slots B σ (.pte (some e) i j) = none ∧
      freeAfterInsert B σ 0 p (.pte (some e) i j) rest = rest) ∨
    ∃ q, i.val * 1024 + j.val ∈ M ∧ slotRef B σ (.pte (some e) i j) = some q ∧
      freeAfterInsert B σ 0 p (.pte (some e) i j) rest = q :: rest := by
  have hpte := h.pte i j
  cases hs : slots B σ (.pte (some e) i j) with
  | none =>
    -- nothing was mapped there
    left
    refine ⟨fun hc => ?_, rfl, by simp only [freeAfterInsert, hs]⟩
    rw [hs, if_pos hc] at hpte
    cases hpte
  | some u =>
    -- the old page loses its only reference
    right
    obtain ⟨q, π⟩ := u
    have href : slotRef B σ (.pte (some e) i j) = some q := by
      rw [slotRef, hs]
      rfl
    have hone : refs B σ q = 1 := h.sole _ q rfl href
    have hqp : q ≠ p := by
      rintro rfl
      omega
    refine ⟨q, ?_, href, ?_⟩
    · by_contra hc
      rw [hs, if_neg hc] at hpte
      cases hpte
    · simp only [freeAfterInsert, hs, Pi.zero_apply, Nat.add_zero]
      rw [if_pos ⟨hqp, hone⟩]

end Loaded

/-- What holds while a program is loaded into `e` and all allocations have succeeded. The pages
that are free, those that are mapped and the page tables add up to `c`. -/
structure LoadInv (B : Boot) (e : Fin nenv) (O : Set ℕ) (c : ℕ) (efree : List (Fin nenv))
    (σ : State) (free : List ℕ) (M : Finset ℕ) : Prop extends MemInv B σ free efree where
  live : Live σ e
  loaded : Loaded e O (slots B σ) free M (tablesOf M)
  count : free.length + M.card + (tablesOf M).card = c

theorem tablesOf_insert (n : ℕ) (M : Finset ℕ) :
    tablesOf (insert n M) = insert (n / 1024) (tablesOf M) :=
  Finset.image_insert _ n M

theorem mem_tablesOf {n : ℕ} (h : n ∈ M) : n / 1024 ∈ tablesOf M :=
  Finset.mem_image_of_mem _ h

theorem pgnum_div (va : Word) : pgnum va / 1024 = (pdx va).val := by
  rw [pgnum_eq, pdx_val]
  omega

/-- A page in a slot without a page table takes two pages. -/
theorem card_insert_new (h : (pdx va).val ∉ tablesOf M) :
    (insert (pgnum va) M).card + (tablesOf (insert (pgnum va) M)).card =
      M.card + (tablesOf M).card + 2 := by
  rw [← pgnum_div] at h
  have hnew : pgnum va ∉ M := fun hc => h (mem_tablesOf hc)
  rw [tablesOf_insert, Finset.card_insert_of_notMem hnew, Finset.card_insert_of_notMem h]
  omega

/-- The same while `region_alloc` has the page `p` in hand. -/
structure InHand (B : Boot) (e : Fin nenv) (O : Set ℕ) (c : ℕ) (efree : List (Fin nenv))
    (σ : State) (p : ℕ) (free : List ℕ) (M : Finset ℕ) : Prop extends MemInv B σ free efree where
  live : Live σ e
  fresh : Fresh B σ free p
  loaded : Loaded e O (slots B σ) (p :: free) M (tablesOf M)
  count : free.length + 1 + M.card + (tablesOf M).card = c

/-- `page_alloc` takes the first free page. -/
theorem LoadInv.alloc {p : ℕ} (h : LoadInv B e O c efree σ (p :: free) M) :
    ∃ σ₁, pageAlloc B 0#32 σ = .ok (some p, σ₁) ∧ InHand B e O c efree σ₁ p free M ∧
      slots B σ₁ = slots B σ ∧ Keeps B σ σ₁ := by
  obtain ⟨σ₁, halloc, hinv, hslots, hkeeps, -⟩ := pageAlloc_spec h.page 0#32
  -- the page is in hand and in no slot yet
  have hrefs : ∀ q, refs B σ₁ q = refs B σ q := refs_eq_of_slots hslots
  refine ⟨σ₁, halloc, ⟨h.toMemInv.of_keeps hinv hkeeps ?_ fun i => by rw [hslots], ?_, ⟨?_, ?_, ?_⟩,
    ?_, ?_⟩, hslots, hkeeps⟩
  · intro q
    rw [hrefs]
    exact h.bound q
  · rw [Live, hkeeps.envs]
    exact h.live
  · exact h.page.free_managed p List.mem_cons_self
  · exact (List.nodup_cons.mp h.page.chain.nodup).1
  · rw [hrefs]
    exact h.page.refs_of_mem List.mem_cons_self
  · rw [hslots]
    exact h.loaded
  · have hcount := h.count
    rwa [List.length_cons] at hcount

namespace InHand

variable {p : ℕ}

theorem notTable (h : InHand B e O c efree σ p free M) (s : Slot) (_ : s.IsTable) :
    slotRef B σ s ≠ some p :=
  refCount_eq_zero.mp h.fresh.unref s

/-- `page_insert` where the page table is there. A page that was mapped at `va` is freed. -/
theorem insert_old (h : InHand B e O c efree σ p free M) (hva : va < utop) {t : ℕ × BitVec 12}
    (ht : entryOf (σ.mem (frameAt (σ.envs e).envPgdir) (pdx va)) = some t) (cpu : ℕ) :
    ∃ σ' free', pageInsert B cpu (σ.envs e).envPgdir p va (pteW ||| pteU) σ = .ok (0, σ') ∧
      LoadInv B e O c efree σ' free' (insert (pgnum va) M) := by
  have hi := (lt_utop_iff va).mp hva
  have hd := h.env.dirFrame_live (B := B) h.live
  have hperm : (pteW ||| pteU).toNat < 4096 := by decide
  have hbits : (pteW ||| pteU).setWidth 12 ||| 1#12 = 7#12 := by decide
  have hpage : (pdx va).val * 1024 + (ptx va).val = pgnum va := (pgnum_split va).symm
  have hcount := h.count
  obtain ⟨σ', hrun, hslots, hkeeps, hinv⟩ :=
    pageInsert_present h.page hd hi ht h.fresh.managed h.fresh.notMem hperm h.bound_held cpu
  rw [hbits] at hslots
  have htable : (pdx va).val ∈ tablesOf M := (h.loaded.mem_tables_iff hd hi).mpr (by
    rw [ht]
    exact Option.some_ne_none t)
  have hsame : tablesOf (insert (pgnum va) M) = tablesOf M := by
    rw [tablesOf_insert, pgnum_div, Finset.insert_eq_of_mem htable]
  have hold := h.loaded.freeAfterInsert_eq h.fresh.unref (pdx va) (ptx va) free
  rw [hpage] at hold
  refine ⟨σ', _, hrun, h.toMemInv.of_keeps (hinv h.notTable) hkeeps
    (h.fresh.insert_bound h.toMemInv h.live hva hperm hrun) fun k => ?_, ?_, ?_, ?_⟩
  · rw [hslots, Function.update_of_ne (by simp)]
  · rw [Live, hkeeps.envs]
    exact h.live
  · -- the page in hand is mapped, and the page that was mapped there is free
    rw [hsame, hslots, ← hpage]
    refine h.loaded.addPage h.fresh.unref (fun q hq => ?_) fun q hq => ?_
    · obtain ⟨-, -, hfree⟩ | ⟨q', -, -, hfree⟩ := hold
      · rw [hfree]
        exact (List.mem_cons.mp hq).symm
      · rw [hfree]
        exact (List.mem_cons.mp hq).symm.imp_left (List.mem_cons_of_mem q')
    · obtain ⟨-, hnone, -⟩ | ⟨q', -, href, hfree⟩ := hold
      · rw [hnone] at hq
        cases hq
      · obtain rfl := Option.some.inj (href.symm.trans hq)
        rw [hfree]
        exact List.mem_cons_self
  · -- either the set of pages has grown, or the free list has
    rw [hsame]
    obtain ⟨hnew, -, hfree⟩ | ⟨q', hmem, -, hfree⟩ := hold
    · rw [hfree, Finset.card_insert_of_notMem hnew]
      omega
    · rw [hfree, Finset.insert_eq_of_mem hmem, List.length_cons]
      omega

/-- `page_insert` that needs a page table. -/
theorem insert_new {t : ℕ} (h : InHand B e O c efree σ p (t :: free) M) (hva : va < utop)
    (ht : entryOf (σ.mem (frameAt (σ.envs e).envPgdir) (pdx va)) = none) (cpu : ℕ) :
    ∃ σ', pageInsert B cpu (σ.envs e).envPgdir p va (pteW ||| pteU) σ = .ok (0, σ') ∧
      LoadInv B e O c efree σ' free (insert (pgnum va) M) := by
  have hi := (lt_utop_iff va).mp hva
  have hd := h.env.dirFrame_live (B := B) h.live
  have hperm : (pteW ||| pteU).toNat < 4096 := by decide
  have hbits : (pteW ||| pteU).setWidth 12 ||| 1#12 = 7#12 := by decide
  have hpage : (pdx va).val * 1024 + (ptx va).val = pgnum va := (pgnum_split va).symm
  have hcount := h.count
  obtain ⟨σ', hrun, hslots, hkeeps, hinv⟩ :=
    pageInsert_alloc h.page hd hi ht h.fresh.managed h.fresh.notMem hperm h.bound_held cpu
  rw [hbits] at hslots
  have htable : (pdx va).val ∉ tablesOf M := fun hc => (h.loaded.mem_tables_iff hd hi).mp hc ht
  have hnew : pgnum va ∉ M := by
    intro hc
    have hdiv := mem_tablesOf hc
    rw [pgnum_div] at hdiv
    exact htable hdiv
  refine ⟨σ', hrun, h.toMemInv.of_keeps (hinv h.notTable) hkeeps
    (h.fresh.insert_bound h.toMemInv h.live hva hperm hrun) fun k => ?_, ?_, ?_, ?_⟩
  · rw [hslots, Function.update_of_ne (by simp), Function.update_of_ne (by simp)]
  · rw [Live, hkeeps.envs]
    exact h.live
  · -- first the page table, then the mapping
    have ht0 : refs B σ t = 0 := h.page.refs_of_mem List.mem_cons_self
    have htp : t ≠ p := fun hc => h.fresh.notMem (hc ▸ List.mem_cons_self)
    have hpde : slotRef B σ (.pde (some e) (pdx va)) = none := by
      rw [slotRef, slots_pde hd (tracked_of_lt hi _), ht]
      rfl
    have hadd : Loaded e O _ (p :: free) M _ := h.loaded.addTable hi htable ht0 fun q hq => by
      obtain rfl | hq := List.mem_cons.mp hq
      · exact Or.inl List.mem_cons_self
      · exact (List.mem_cons.mp hq).symm.imp_left (List.mem_cons_of_mem p)
    rw [tablesOf_insert, pgnum_div, hslots, ← hpage]
    refine hadd.addPage ?_ (fun q hq => (List.mem_cons.mp hq).symm) fun q hq => ?_
    · have hother := refCount_update_some hpde t p
      rw [if_neg htp, Nat.add_zero] at hother
      rw [Loaded.map_fst_update]
      exact hother.trans h.fresh.unref
    · rw [Function.update_of_ne (by simp)] at hq
      have hpte := h.loaded.pte (pdx va) (ptx va)
      rw [hpage, if_neg hnew, Option.map_eq_none_iff] at hpte
      rw [hpte] at hq
      cases hq
  · have htwo := card_insert_new htable
    rw [List.length_cons] at hcount
    omega

end InHand

/-! ### `region_alloc` -/

/-- One page of `region_alloc`. It is mapped; or there was no page; or there was one, but none for
the page table, and then the page is lost. -/
theorem LoadInv.allocPage (h : LoadInv B e O c efree σ free M) (hva : va < utop) (cpu n : ℕ) :
    (free = [] ∧ regionAllocLoop B cpu e (n + 1) va σ = .error ⟨"env region_alloc failed"⟩) ∨
    (∃ σ₁ free₁, regionAllocLoop B cpu e (n + 1) va σ =
        regionAllocLoop B cpu e n (va + pgsize) σ₁ ∧
      LoadInv B e O c efree σ₁ free₁ (insert (pgnum va) M)) ∨
    ∃ p σ₁, free = [p] ∧ (pdx va).val ∉ tablesOf M ∧ regionAllocLoop B cpu e (n + 1) va σ =
        regionAllocLoop B cpu e n (va + pgsize) σ₁ ∧
      σ₁.pageFreeList = none ∧ slots B σ₁ = slots B σ ∧ Keeps B σ σ₁ := by
  cases free with
  | nil =>
    refine Or.inl ⟨rfl, ?_⟩
    simp only [regionAllocLoop, pageAlloc_nil h.page, ok_bind]
  | cons p free =>
    right
    obtain ⟨σ₁, halloc, hhand, hslots, hkeeps⟩ := h.alloc
    -- whatever `page_insert` returns
    have hstep : ∀ r σ₂, pageInsert B cpu (σ₁.envs e).envPgdir p va (pteW ||| pteU) σ₁ =
        .ok (r, σ₂) → regionAllocLoop B cpu e (n + 1) va σ =
          regionAllocLoop B cpu e n (va + pgsize) σ₂ := by
      intro r σ₂ hins
      simp only [regionAllocLoop, halloc, ok_bind, hins]
    cases ht : entryOf (σ₁.mem (frameAt (σ₁.envs e).envPgdir) (pdx va)) with
    | some t =>
      obtain ⟨σ₂, free₂, hins, hload⟩ := hhand.insert_old hva ht cpu
      exact Or.inl ⟨σ₂, free₂, hstep _ _ hins, hload⟩
    | none =>
      cases free with
      | nil =>
        -- `page_insert` returns `-E_NO_MEM`, and the loop goes on
        have hins := pageInsert_full hhand.page ht cpu p (pteW ||| pteU)
        have hd := hhand.env.dirFrame_live (B := B) hhand.live
        refine Or.inr ⟨p, σ₁, rfl, fun hc => ?_, hstep _ _ hins,
          hhand.page.chain.head_none_iff.mpr rfl, hslots, hkeeps⟩
        exact (hhand.loaded.mem_tables_iff hd ((lt_utop_iff va).mp hva)).mp hc ht
      | cons t free =>
        obtain ⟨σ₂, hins, hload⟩ := hhand.insert_new hva ht cpu
        exact Or.inl ⟨σ₂, free, hstep _ _ hins, hload⟩

/-- Without free pages `region_alloc` does nothing or panics. -/
theorem regionAllocLoop_none {n : ℕ} (h : σ.pageFreeList = none)
    (hrun : regionAllocLoop B cpu e n va σ = .ok σ') : n = 0 ∧ σ' = σ := by
  cases n with
  | zero => exact ⟨rfl, (Except.ok.inj hrun).symm⟩
  | succ n =>
    simp only [regionAllocLoop, pageAlloc, h, ok_bind] at hrun
    cases hrun

theorem card_add_card_le {N : Finset ℕ} (h : M ⊆ N) :
    M.card + (tablesOf M).card ≤ N.card + (tablesOf N).card :=
  Nat.add_le_add (Finset.card_le_card h) (Finset.card_le_card (Finset.image_subset_image h))

theorem insert_union_Ico (m n : ℕ) (M : Finset ℕ) :
    insert m M ∪ Finset.Ico (m + 1) (m + 1 + n) = M ∪ Finset.Ico m (m + (n + 1)) := by
  ext k
  simp only [Finset.mem_union, Finset.mem_insert, Finset.mem_Ico]
  by_cases hk : k ∈ M
  · simp only [hk, or_true, true_or]
  · simp only [hk, or_false, false_or]
    omega

/-- The loop of `region_alloc` maps its pages, or the free pages are used up, and it is known how
many there were. -/
theorem LoadInv.regionAllocLoop (cpu n : ℕ) (h : LoadInv B e O c efree σ free M)
    (hva : va.toNat + n * 4096 ≤ utop.toNat) :
    (∃ σ' free', regionAllocLoop B cpu e n va σ = .ok σ' ∧
      LoadInv B e O c efree σ' free' (M ∪ Finset.Ico (pgnum va) (pgnum va + n))) ∨
    ((∀ σ', regionAllocLoop B cpu e n va σ = .ok σ' → σ'.pageFreeList = none) ∧
      c ≤ (M ∪ Finset.Ico (pgnum va) (pgnum va + n)).card +
        (tablesOf (M ∪ Finset.Ico (pgnum va) (pgnum va + n))).card) := by
  induction n generalizing σ free M va with
  | zero =>
    refine Or.inl ⟨σ, free, rfl, ?_⟩
    rwa [Nat.add_zero, Finset.Ico_self, Finset.union_empty]
  | succ n ih =>
    have hlt : va < utop := by
      rw [BitVec.lt_def]
      omega
    have hcount := h.count
    obtain ⟨hnext, hpg⟩ := pgnum_succ_of_lt_utop hlt
    have hset := insert_union_Ico (pgnum va) n M
    obtain ⟨rfl, hfail⟩ | ⟨σ₁, free₁, hstep, h₁⟩ | ⟨p, σ₁, rfl, htable, hstep, hnone, -⟩ :=
      h.allocPage hlt cpu n
    · -- there was no page
      refine Or.inr ⟨fun σ' hok => ?_, ?_⟩
      · rw [hfail] at hok
        cases hok
      · have hsub : M ⊆ M ∪ Finset.Ico (pgnum va) (pgnum va + (n + 1)) := Finset.subset_union_left
        have hle := card_add_card_le hsub
        rw [List.length_nil] at hcount
        omega
    · rw [hstep, ← hset, ← hpg]
      exact ih h₁ (by omega)
    · -- the page in hand is lost, and it was the last one
      right
      rw [hstep]
      refine ⟨fun σ' hok => by rw [(regionAllocLoop_none hnone hok).2]; exact hnone, ?_⟩
      have hsub : insert (pgnum va) M ⊆ M ∪ Finset.Ico (pgnum va) (pgnum va + (n + 1)) := by
        rw [← hset]
        exact Finset.subset_union_left
      have hle := card_add_card_le hsub
      rw [card_insert_new htable] at hle
      rw [List.length_singleton] at hcount
      omega

/-! ### `cr3` stays -/

section Frame

variable {pgdir perm : Word}

theorem pageAlloc_cpus {flags : Word} {r : Option ℕ} (h : pageAlloc B flags σ = .ok (r, σ')) :
    σ'.cpus = σ.cpus := by
  unfold pageAlloc at h
  split at h
  · obtain ⟨-, rfl⟩ := Prod.mk.inj (Except.ok.inj h)
    rfl
  · simp only at h
    split at h
    · obtain ⟨kva, -, hret⟩ := bind_eq_ok.mp h
      obtain ⟨-, rfl⟩ := Prod.mk.inj (Except.ok.inj hret)
      rfl
    · obtain ⟨-, rfl⟩ := Prod.mk.inj (Except.ok.inj h)
      rfl

theorem envAlloc_cpus {parentId : Word} {r : ℤ} {ne : Option (Fin nenv)}
    (h : envAlloc B parentId σ = .ok (r, ne, σ')) : σ'.cpus = σ.cpus := by
  unfold envAlloc at h
  split at h
  · cases h
    rfl
  · next e _ =>
    obtain ⟨⟨r₁, σ₁⟩, hsetup, hrest⟩ := bind_eq_ok.mp h
    have hcpus : σ₁.cpus = σ.cpus := by
      obtain ⟨⟨p, σ₂⟩, halloc, hvm⟩ := bind_eq_ok.mp hsetup
      rw [← pageAlloc_cpus halloc]
      cases p with
      | none =>
        cases hvm
        rfl
      | some p =>
        obtain ⟨pgdir, -, hvm⟩ := bind_eq_ok.mp hvm
        obtain ⟨pa, -, hret⟩ := bind_eq_ok.mp hvm
        cases hret
        rfl
    rw [← hcpus]
    dsimp only at hrest
    split at hrest <;>
    · cases hrest
      rfl

theorem pgdirWalk_cpus {create : Bool} {r : Option PtePtr}
    (h : pgdirWalk B pgdir va create σ = .ok (r, σ')) : σ'.cpus = σ.cpus := by
  cases create with
  | false => rw [pgdirWalk_false h]
  | true =>
    simp only [pgdirWalk, if_true] at h
    split at h
    · rw [walkTable_state h]
    · obtain ⟨⟨page, σ₁⟩, halloc, hrest⟩ := bind_eq_ok.mp h
      have hsame := pageAlloc_cpus halloc
      cases page with
      | none =>
        obtain ⟨-, rfl⟩ := Prod.mk.inj (Except.ok.inj hrest)
        exact hsame
      | some page =>
        rw [walkTable_state hrest]
        exact hsame

theorem pageRemove_cr3 (h : pageRemove B cpu pgdir va σ = .ok σ') :
    (σ'.cpus cpu).cr3 = (σ.cpus cpu).cr3 := by
  obtain ⟨⟨found, σ₁⟩, hlook, hrest⟩ := bind_eq_ok.mp h
  obtain rfl := pageLookup_state hlook
  cases found with
  | none =>
    obtain rfl := Except.ok.inj hrest
    rfl
  | some u =>
    obtain ⟨page, pte⟩ := u
    simp only at hrest
    split at hrest
    · obtain ⟨σ₂, hdec, hret⟩ := bind_eq_ok.mp hrest
      obtain rfl := Except.ok.inj hret
      rw [tlbInvalidate_cr3, (Stepwise.pageDecref_same hdec).cpus]
      rfl
    · obtain rfl := Except.ok.inj hrest
      rfl

theorem pageInsert_cr3 {pp : ℕ} {r : ℤ} (h : pageInsert B cpu pgdir pp va perm σ = .ok (r, σ')) :
    (σ'.cpus cpu).cr3 = (σ.cpus cpu).cr3 := by
  obtain ⟨⟨pte, σ₁⟩, hwalk, hrest⟩ := bind_eq_ok.mp h
  have hsame := pgdirWalk_cpus hwalk
  cases pte with
  | none =>
    obtain ⟨-, rfl⟩ := Prod.mk.inj (Except.ok.inj hrest)
    rw [hsame]
  | some pte =>
    obtain ⟨σ₂, hold, rfl⟩ := pageInsertAt_ok hrest
    change (σ₂.cpus cpu).cr3 = _
    obtain hrem | rfl := hold
    · rw [pageRemove_cr3 hrem, ← hsame]
      rfl
    · rw [← hsame]
      rfl

/-- `region_alloc` keeps the environment table and `cr3`. -/
theorem regionAllocLoop_frame {n : ℕ} (h : Jos.regionAllocLoop B cpu e n va σ = .ok σ') :
    SameTable σ σ' ∧ (σ'.cpus cpu).cr3 = (σ.cpus cpu).cr3 := by
  induction n generalizing σ va with
  | zero =>
    obtain rfl := Except.ok.inj h
    exact ⟨.refl _, rfl⟩
  | succ n ih =>
    obtain ⟨⟨p, σ₁⟩, halloc, hrest⟩ := bind_eq_ok.mp h
    cases p with
    | none => cases hrest
    | some p =>
      obtain ⟨⟨r, σ₂⟩, hins, hloop⟩ := bind_eq_ok.mp hrest
      obtain ⟨htable, hcr3⟩ := ih hloop
      refine ⟨((pageAlloc_table halloc).trans (pageInsert_table hins)).trans htable, ?_⟩
      rw [hcr3, pageInsert_cr3 hins, pageAlloc_cpus halloc]

end Frame

/-! ### The segments -/

/-- The page directory of `e` is in `cr3`. -/
def InCr3 (cpu : ℕ) (e : Fin nenv) (σ : State) : Prop :=
  pgnum (σ.cpus cpu).cr3 = frameAt (σ.envs e).envPgdir

/-- A change that no slot shows. -/
theorem LoadInv.of_slots (h : LoadInv B e O c efree σ free M) (hslots : slots B σ' = slots B σ)
    (hk : Keeps B σ σ') (hpages : σ'.pages = σ.pages) (hfl : σ'.pageFreeList = σ.pageFreeList) :
    LoadInv B e O c efree σ' free M where
  toMemInv := h.toMemInv.of_keeps (h.page.congr hpages hfl hslots) hk
    (fun p => by rw [refs_eq_of_slots hslots]; exact h.bound p) fun i => by rw [hslots]
  live := by
    rw [Live, hk.envs]
    exact h.live
  loaded := by
    rw [hslots]
    exact h.loaded
  count := h.count

/-- Where the processor finds a page that is mapped. -/
theorem LoadInv.translate_slot (h : LoadInv B e O c efree σ free M) (hva : va < utop)
    (hmem : pgnum va ∈ M) :
    ∃ p, translate σ e va = some (tablePerm, 7#12, p) ∧
      slots B σ (.pte (some e) (pdx va) (ptx va)) = some (p, 7#12) := by
  have hd := h.env.dirFrame_live (B := B) h.live
  have hlow : (pdx va).val < 955 := (lt_utop_iff va).mp hva
  have htable : (pdx va).val ∈ tablesOf M := by
    rw [← pgnum_div]
    exact mem_tablesOf hmem
  -- both entries are there, with all permissions
  have hpde := h.loaded.pde (pdx va) hlow
  rw [slots_pde hd (tracked_of_lt hlow _), if_pos htable] at hpde
  obtain ⟨⟨t, π₁⟩, ht, rfl⟩ := Option.map_eq_some_iff.mp hpde
  have hpte := h.loaded.pte (pdx va) (ptx va)
  rw [slots_pte hd hlow ht, ← pgnum_split, if_pos hmem] at hpte
  obtain ⟨⟨p, π₂⟩, hp, rfl⟩ := Option.map_eq_some_iff.mp hpte
  exact ⟨p, x86Walk_eq_some.mpr ⟨t, ht, hp⟩, by rw [slots_pte hd hlow ht, hp]⟩

theorem LoadInv.translate_eq (h : LoadInv B e O c efree σ free M) (hva : va < utop)
    (hmem : pgnum va ∈ M) :
    ∃ p, translate σ e va = some (tablePerm, 7#12, p) ∧
      slotRef B σ (.pte (some e) (pdx va) (ptx va)) = some p := by
  obtain ⟨p, htr, hslot⟩ := h.translate_slot hva hmem
  exact ⟨p, htr, by rw [slotRef, hslot]; rfl⟩

/-- The processor finds the page that is mapped at `va`, and may write to it. -/
theorem LoadInv.storeByte_eq (h : LoadInv B e O c efree σ free M) (hcr3 : InCr3 cpu e σ)
    (hva : va < utop) (hmem : pgnum va ∈ M) (v : Byte) :
    ∃ q, slots B σ (.pte (some e) (pdx va) (ptx va)) = some (q, 7#12) ∧
      storeByte cpu va v σ = .ok (σ.setByte q (pgoff va) v) := by
  obtain ⟨q, htr, hslot⟩ := h.translate_slot hva hmem
  have haccess : kernelAccess σ (pgnum (σ.cpus cpu).cr3) va = some (q, true) := by
    rw [hcr3]
    exact (kernelAccess_eq_some (lt_kernbase_of_lt_utop hva)).mpr ⟨tablePerm, 7#12, htr, by decide⟩
  refine ⟨q, hslot, ?_⟩
  rw [Jos.storeByte, haccess]

/-- A byte can be written where a page is mapped. -/
theorem LoadInv.storeByte (h : LoadInv B e O c efree σ free M) (hcr3 : InCr3 cpu e σ)
    (hva : va < utop) (hmem : pgnum va ∈ M) (v : Byte) :
    ∃ σ', storeByte cpu va v σ = .ok σ' ∧ LoadInv B e O c efree σ' free M ∧ InCr3 cpu e σ' := by
  obtain ⟨q, hu, hrun⟩ := h.storeByte_eq hcr3 hva hmem v
  have hmapped : slotRef B σ (.pte (some e) (pdx va) (ptx va)) = some q := by
    rw [slotRef, hu]
    rfl
  -- the page is mapped, so it is no table
  obtain ⟨hslots, hkeeps⟩ : slots B (σ.setByte q (pgoff va) v) = slots B σ ∧
      Keeps B σ (σ.setByte q (pgoff va) v) := h.page.separated.setFrame_mapped hmapped _
  exact ⟨σ.setByte q (pgoff va) v, hrun, h.of_slots hslots hkeeps rfl rfl, hcr3⟩

theorem LoadInv.storeBytes (bs : List Byte) (va : Word) (h : LoadInv B e O c efree σ free M)
    (hcr3 : InCr3 cpu e σ) (hva : va.toNat + bs.length ≤ utop.toNat)
    (hmem : ∀ k < bs.length, (va.toNat + k) / 4096 ∈ M) :
    ∃ σ', storeBytes cpu bs va σ = .ok σ' ∧ LoadInv B e O c efree σ' free M ∧
      InCr3 cpu e σ' := by
  induction bs generalizing σ va with
  | nil => exact ⟨σ, rfl, h, hcr3⟩
  | cons v bs ih =>
    rw [List.length_cons] at hva hmem
    have hlt : va < utop := by
      rw [BitVec.lt_def]
      omega
    -- below `UTOP` the next address does not wrap
    have hnext := toNat_succ_of_lt_utop hlt
    have hfirst : pgnum va ∈ M := by
      have h0 := hmem 0 (by omega)
      rwa [Nat.add_zero, ← pgnum_eq] at h0
    obtain ⟨σ₁, hstore, h₁, hcr3₁⟩ := h.storeByte hcr3 hlt hfirst v
    have hva₁ : (va + 1#32).toNat + bs.length ≤ utop.toNat := by omega
    obtain ⟨σ', hrest, h', hcr3'⟩ := ih (va + 1#32) h₁ hcr3₁ hva₁ fun k hk => by
      have hk' := hmem (k + 1) (by omega)
      rwa [hnext, Nat.add_assoc, Nat.add_comm 1]
    exact ⟨σ', by rw [Jos.storeBytes, hstore, ok_bind, hrest], h', hcr3'⟩

/-- `memcpy` and `memset` write memory only. -/
theorem storeBytes_mem {bs : List Byte} (h : storeBytes cpu bs va σ = .ok σ') :
    ∃ mem, σ' = { σ with mem := mem } := by
  induction bs generalizing σ va with
  | nil =>
    obtain rfl := Except.ok.inj h
    exact ⟨_, rfl⟩
  | cons v bs ih =>
    obtain ⟨σ₁, hstore, hrest⟩ := bind_eq_ok.mp h
    obtain ⟨mem, rfl⟩ := ih hrest
    unfold storeByte at hstore
    split at hstore
    · obtain rfl := Except.ok.inj hstore
      exact ⟨mem, rfl⟩
    · cases hstore

theorem storeBytes_list {bs : List Byte} (h : storeBytes cpu bs va σ = .ok σ') :
    σ'.pageFreeList = σ.pageFreeList := by
  obtain ⟨mem, rfl⟩ := storeBytes_mem h
  rfl

/-- The virtual pages of a loadable segment, from that of its first byte to that of its last. -/
def segmentPages (ph : Proghdr) : Finset ℕ :=
  if ph.pType = elfProgLoad then
    Finset.Ico (ph.pVa.toNat / 4096) ((ph.pVa.toNat + ph.pMemsz.toNat + 4095) / 4096)
  else ∅

/-- The virtual pages of all loadable segments. -/
def programPages (l : List Proghdr) : Finset ℕ := l.foldr (fun ph M => segmentPages ph ∪ M) ∅

/-- How a part of `load_icode` ends: the pages `N` are mapped, or the free pages are used up, and
then `N` needs all of them. -/
def LoadOutcome (B : Boot) (cpu : ℕ) (e : Fin nenv) (O : Set ℕ) (c : ℕ) (efree : List (Fin nenv))
    (N : Finset ℕ) (r : Except Panic State) : Prop :=
  (∃ σ' free', r = .ok σ' ∧ LoadInv B e O c efree σ' free' N ∧ InCr3 cpu e σ') ∨
    ((∀ σ', r = .ok σ' → σ'.pageFreeList = none) ∧ c ≤ N.card + (tablesOf N).card)

/-- A part and what comes after it. The second part must not find pages when the first one has
used them up. -/
theorem LoadOutcome.bind {N N' : Finset ℕ} {r : Except Panic State}
    {k : State → Except Panic State} (h : LoadOutcome B cpu e O c efree N r)
    (hk : ∀ σ free, LoadInv B e O c efree σ free N → InCr3 cpu e σ →
      LoadOutcome B cpu e O c efree N' (k σ))
    (hdry : ∀ σ σ', σ.pageFreeList = none → k σ = .ok σ' → σ'.pageFreeList = none)
    (hsub : N ⊆ N') : LoadOutcome B cpu e O c efree N' (r >>= k) := by
  obtain ⟨σ₁, free₁, rfl, h₁, hcr3⟩ | ⟨hnone, hused⟩ := h
  · rw [ok_bind]
    exact hk σ₁ free₁ h₁ hcr3
  · refine Or.inr ⟨fun σ' hok => ?_, hused.trans (card_add_card_le hsub)⟩
    obtain ⟨σ₁, hr, hrest⟩ := bind_eq_ok.mp hok
    exact hdry σ₁ σ' (hnone σ₁ hr) hrest

/-- `region_alloc` maps its pages, or the free pages are used up. -/
theorem LoadInv.regionAlloc {len : Word} (h : LoadInv B e O c efree σ free M)
    (hcr3 : InCr3 cpu e σ) (hva : va.toNat + len.toNat ≤ utop.toNat) {N : Finset ℕ}
    (hN : N = M ∪ Finset.Ico (va.toNat / 4096) ((va.toNat + len.toNat + 4095) / 4096)) :
    LoadOutcome B cpu e O c efree N (regionAlloc B cpu e va len σ) := by
  obtain ⟨hend, hfirst, hlast⟩ := regionAlloc_pages hva
  have hloop := h.regionAllocLoop cpu (regionPages va len) hend
  rw [hfirst, hlast, ← hN] at hloop
  refine hloop.imp_left ?_
  rintro ⟨σ', free', hrun, h'⟩
  obtain ⟨⟨henvs, -, -⟩, hsame⟩ := regionAllocLoop_frame hrun
  refine ⟨σ', free', hrun, h', ?_⟩
  rw [InCr3, henvs, hsame]
  exact hcr3

section Program

variable {image : Word → Byte} {binary : Word}

/-- The file part and the rest of a segment are written to its pages. -/
theorem LoadInv.fillSegment (h : LoadInv B e O c efree σ free M) (hcr3 : InCr3 cpu e σ)
    (image : Word → Byte) (binary : Word) {ph : Proghdr}
    (hend : ph.pVa.toNat + ph.pMemsz.toNat ≤ utop.toNat) (hle : ph.pFilesz ≤ ph.pMemsz)
    (hmem : ∀ k < ph.pMemsz.toNat, (ph.pVa.toNat + k) / 4096 ∈ M) :
    ∃ σ₁ σ', Jos.storeBytes cpu (imageBytes image (binary + ph.pOffset) ph.pFilesz.toNat) ph.pVa
        σ = .ok σ₁ ∧
      Jos.storeBytes cpu (List.replicate (ph.pMemsz - ph.pFilesz).toNat 0#8) (ph.pVa + ph.pFilesz)
        σ₁ = .ok σ' ∧
      LoadInv B e O c efree σ' free M ∧ InCr3 cpu e σ' := by
  obtain ⟨hfile, hrest, hsize⟩ := Proghdr.parts_toNat hend hle
  have hlen : (imageBytes image (binary + ph.pOffset) ph.pFilesz.toNat).length =
      ph.pFilesz.toNat := by
    rw [imageBytes, List.length_map, List.length_range]
  -- `memcpy`
  obtain ⟨σ₁, hcopy, h₁, hcr3₁⟩ := h.storeBytes
    (imageBytes image (binary + ph.pOffset) ph.pFilesz.toNat) ph.pVa hcr3 (by omega)
    fun k hk => hmem k (by omega)
  -- `memset`
  obtain ⟨σ₂, hclear, h₂, hcr3₂⟩ := h₁.storeBytes
    (List.replicate (ph.pMemsz - ph.pFilesz).toNat 0#8) (ph.pVa + ph.pFilesz) hcr3₁
    (by rw [List.length_replicate, hfile, hrest]; omega) fun k hk => by
      rw [List.length_replicate, hrest] at hk
      rw [hfile, Nat.add_assoc]
      exact hmem _ (by omega)
  exact ⟨σ₁, σ₂, hcopy, hclear, h₂, hcr3₂⟩

/-- One segment is loaded, or the free pages are used up. -/
theorem LoadInv.placeSegment (h : LoadInv B e O c efree σ free M) (hcr3 : InCr3 cpu e σ)
    (image : Word → Byte) (binary : Word) {ph : Proghdr} (hph : ph.pType = elfProgLoad →
      ph.pVa.toNat + ph.pMemsz.toNat ≤ utop.toNat ∧ ph.pFilesz ≤ ph.pMemsz) :
    LoadOutcome B cpu e O c efree (M ∪ segmentPages ph)
      (placeSegment B cpu e image binary σ ph) := by
  unfold Jos.placeSegment
  by_cases htype : ph.pType = elfProgLoad
  · simp only [if_pos htype]
    obtain ⟨hend, hle⟩ := hph htype
    have hpages : segmentPages ph = _ := if_pos htype
    have hregion := h.regionAlloc hcr3 hend (N := M ∪ segmentPages ph) (by rw [hpages])
    refine hregion.bind (fun σ₁ free₁ h₁ hcr3₁ => ?_) (fun σ₁ σ' hnone hrun => ?_) subset_rfl
    · -- the bytes of the segment are on its pages
      have hbyte : ∀ k < ph.pMemsz.toNat, (ph.pVa.toNat + k) / 4096 ∈ M ∪ segmentPages ph := by
        intro k hk
        rw [hpages, Finset.mem_union, Finset.mem_Ico]
        right
        omega
      obtain ⟨σ₂, σ₃, hcopy, hclear, h₃, hcr3₃⟩ :=
        h₁.fillSegment hcr3₁ image binary hend hle hbyte
      exact Or.inl ⟨σ₃, free₁, by rw [hcopy, ok_bind, hclear], h₃, hcr3₃⟩
    · obtain ⟨σ₂, hcopy, hclear⟩ := bind_eq_ok.mp hrun
      rw [storeBytes_list hclear, storeBytes_list hcopy, hnone]
  · -- other segments are skipped
    simp only [if_neg htype]
    have hpages : segmentPages ph = ∅ := if_neg htype
    refine Or.inl ⟨σ, free, rfl, ?_, hcr3⟩
    rwa [hpages, Finset.union_empty]

/-- When the free pages are used up, the next allocation panics. -/
theorem placeSegment_none {ph : Proghdr} (h : σ.pageFreeList = none)
    (hrun : placeSegment B cpu e image binary σ ph = .ok σ') : σ'.pageFreeList = none := by
  unfold placeSegment at hrun
  split at hrun
  · obtain ⟨σ₁, hregion, hrun⟩ := bind_eq_ok.mp hrun
    obtain ⟨σ₂, hcopy, hclear⟩ := bind_eq_ok.mp hrun
    rw [storeBytes_list hclear, storeBytes_list hcopy, (regionAllocLoop_none h hregion).2, h]
  · rwa [← Except.ok.inj hrun]

theorem placeSegments_none {l : List Proghdr} (h : σ.pageFreeList = none)
    (hrun : l.foldlM (placeSegment B cpu e image binary) σ = .ok σ') : σ'.pageFreeList = none := by
  induction l generalizing σ with
  | nil => rwa [← Except.ok.inj hrun]
  | cons ph l ih =>
    rw [List.foldlM_cons] at hrun
    obtain ⟨σ₁, hstep, hrest⟩ := bind_eq_ok.mp hrun
    exact ih (placeSegment_none h hstep) hrest

/-- All segments are loaded, or the free pages are used up. -/
theorem LoadInv.placeSegments (h : LoadInv B e O c efree σ free M) (hcr3 : InCr3 cpu e σ)
    (image : Word → Byte) (binary : Word) {l : List Proghdr} (hl : ∀ ph ∈ l,
      ph.pType = elfProgLoad →
        ph.pVa.toNat + ph.pMemsz.toNat ≤ utop.toNat ∧ ph.pFilesz ≤ ph.pMemsz) :
    LoadOutcome B cpu e O c efree (M ∪ programPages l)
      (l.foldlM (Jos.placeSegment B cpu e image binary) σ) := by
  -- the pages that are mapped grow with every segment
  induction l generalizing σ free M with
  | nil =>
    refine Or.inl ⟨σ, free, rfl, ?_, hcr3⟩
    rwa [programPages, List.foldr_nil, Finset.union_empty]
  | cons ph l ih =>
    have hset : M ∪ programPages (ph :: l) = M ∪ segmentPages ph ∪ programPages l := by
      rw [programPages, List.foldr_cons, ← Finset.union_assoc]
      rfl
    rw [List.foldlM_cons, hset]
    have hfirst := h.placeSegment hcr3 image binary (hl ph List.mem_cons_self)
    refine hfirst.bind (fun σ₁ free₁ h₁ hcr3₁ => ?_)
      (fun σ₁ σ' hnone hrun => placeSegments_none hnone hrun) Finset.subset_union_left
    exact ih h₁ hcr3₁ fun ph' hph' => hl ph' (List.mem_cons_of_mem _ hph')

end Program

end Jos
