import Jos.Memory.Isolation

/-!
# The page tables at `UVPT`

The page directory of an environment has itself as the page table of `UVPT`, so the
processor shows the page tables of the environment at `UVPT` and the directory at
`uvpd`. `uvpt_faithful` says that the entry the processor finds there for an address is
the one `pgdir_walk` returns, and that user code cannot write it.

All this needs of a state is `DirsSafe`: no page directory is on the free list, and none
is mapped below `UTOP`. It is weaker than the page invariant and does not mention the
counters, so `page_insert` and `page_remove` keep it whatever the counters are.
-/

namespace Jos

variable {B : Boot} {σ σ' σ₀ : State} {cpu : ℕ} {e : Fin nenv} {D : Set ℕ}

/-! ### What the page operations keep -/

/-- A page that may be allocated and mapped, `D` being the page directories. -/
def Usable (B : Boot) (D : Set ℕ) (p : ℕ) : Prop := p < B.npages ∧ p ∉ D

/-- The page directories `D` are neither free nor mapped below `UTOP`, and each is its
own page table at `UVPT`. -/
structure DirsSafe (B : Boot) (D : Set ℕ) (σ : State) : Prop where
  head : ∀ p, σ.pageFreeList = some p → Usable B D p
  link : ∀ q p, σ.link q = some p → Usable B D p
  own : ∀ d ∈ D, entryOf (σ.mem d (pdx uvpt)) = some (d, 5#12)
  entry : ∀ d ∈ D, ∀ i t π, entryOf (σ.mem d i) = some (t, π) → t < B.npages
  table : ∀ d ∈ D, ∀ (i : Fin 1024) t π, i.val < 955 → entryOf (σ.mem d i) = some (t, π) → t ∉ D
  mapped : ∀ d ∈ D, ∀ (i : Fin 1024) t π, i.val < 955 → entryOf (σ.mem d i) = some (t, π) →
    ∀ j p π', entryOf (σ.mem t j) = some (p, π') → p ∉ D

namespace DirsSafe

/-- A change of the free list and of the data of pages. -/
theorem of_links (h : DirsSafe B D σ) (hmem : σ'.mem = σ.mem)
    (hhead : ∀ p, σ'.pageFreeList = some p → Usable B D p)
    (hlink : ∀ q p, σ'.link q = some p → Usable B D p) : DirsSafe B D σ' := by
  refine ⟨hhead, hlink, ?_, ?_, ?_, ?_⟩
  all_goals rw [hmem]
  · exact h.own
  · exact h.entry
  · exact h.table
  · exact h.mapped

/-- A write into a frame that is no page directory, of entries that map none. -/
theorem setFrame (h : DirsSafe B D σ) {f : ℕ} {c : Fin 1024 → Word} (hf : f ∉ D)
    (hc : ∀ j p π, entryOf (c j) = some (p, π) → entryOf (σ.mem f j) = some (p, π) ∨ p ∉ D) :
    DirsSafe B D (σ.setFrame f c) := by
  -- `f` is no directory, so only a page table may change
  have hdir : ∀ d ∈ D, (σ.setFrame f c).mem d = σ.mem d := by
    intro d hd
    exact Function.update_of_ne (ne_of_mem_of_not_mem hd hf) ..
  refine ⟨h.head, h.link, ?_, ?_, ?_, ?_⟩
  · intro d hd
    rw [hdir d hd]
    exact h.own d hd
  · intro d hd
    rw [hdir d hd]
    exact h.entry d hd
  · intro d hd
    rw [hdir d hd]
    exact h.table d hd
  · intro d hd i t π hi ht j p π' hp
    rw [hdir d hd] at ht
    change entryOf (Function.update σ.mem f c t j) = _ at hp
    by_cases htf : t = f
    · rw [htf, Function.update_self] at hp
      obtain hold | hp := hc j p π' hp
      · exact h.mapped d hd i t π hi ht j p π' (htf ▸ hold)
      · exact hp
    · rw [Function.update_of_ne htf] at hp
      exact h.mapped d hd i t π hi ht j p π' hp

/-- A write of one entry of a page table. -/
theorem setWord (h : DirsSafe B D σ) {f : ℕ} {k : Fin 1024} {w : Word} (hf : f ∉ D)
    (hw : ∀ p π, entryOf w = some (p, π) → p ∉ D) : DirsSafe B D (σ.setWord f k w) := by
  refine h.setFrame (c := Function.update (σ.mem f) k w) hf ?_
  intro j p π hp
  by_cases hjk : j = k
  · rw [hjk, Function.update_self] at hp
    exact Or.inr (hw p π hp)
  · rw [Function.update_of_ne hjk] at hp
    exact Or.inl hp

/-- A page table that maps nothing is put into a page directory. -/
theorem setPde (h : DirsSafe B D σ) {d : ℕ} {i : Fin 1024} {w : Word} {t : ℕ} {π : BitVec 12}
    (hi : i.val < 955) (hw : entryOf w = some (t, π)) (ht : Usable B D t)
    (hempty : ∀ j, entryOf (σ.mem t j) = none) : DirsSafe B D (σ.setWord d i w) := by
  -- every entry is the new one or an old one
  have hread : ∀ f k u, entryOf ((σ.setWord d i w).mem f k) = some u →
      (f = d ∧ k = i ∧ u = (t, π)) ∨ entryOf (σ.mem f k) = some u := by
    intro f k u hu
    by_cases hfd : f = d
    · subst hfd
      rw [setWord_mem_self] at hu
      by_cases hki : k = i
      · rw [hki, Function.update_self, hw] at hu
        exact Or.inl ⟨rfl, hki, (Option.some.inj hu).symm⟩
      · rw [Function.update_of_ne hki] at hu
        exact Or.inr hu
    · rw [setWord_mem_of_ne hfd] at hu
      exact Or.inr hu
  refine ⟨h.head, h.link, ?_, ?_, ?_, ?_⟩
  · intro d' hd'
    have hne : pdx uvpt ≠ i := by
      rintro rfl
      exact absurd hi (by decide)
    by_cases hdd : d' = d
    · subst hdd
      rw [setWord_mem_self, Function.update_of_ne hne]
      exact h.own d' hd'
    · rw [setWord_mem_of_ne hdd]
      exact h.own d' hd'
  · intro d' hd' k u ρ hu
    obtain ⟨-, -, heq⟩ | hold := hread d' k _ hu
    · obtain ⟨rfl, -⟩ := Prod.mk.inj heq
      exact ht.1
    · exact h.entry d' hd' k u ρ hold
  · intro d' hd' k u ρ hk hu
    obtain ⟨-, -, heq⟩ | hold := hread d' k _ hu
    · obtain ⟨rfl, -⟩ := Prod.mk.inj heq
      exact ht.2
    · exact h.table d' hd' k u ρ hk hold
  · intro d' hd' k u ρ hk hu j p π' hp
    obtain ⟨rfl, -, heq⟩ | hp := hread u j _ hp
    · -- the written directory is no page table
      obtain ⟨-, -, heq'⟩ | hold := hread d' k _ hu
      · obtain ⟨rfl, -⟩ := Prod.mk.inj heq'
        obtain ⟨rfl, -⟩ := Prod.mk.inj heq
        exact ht.2
      · obtain ⟨rfl, -⟩ := Prod.mk.inj heq
        exact ht.2
    · obtain ⟨-, -, heq⟩ | hold := hread d' k _ hu
      · obtain ⟨rfl, -⟩ := Prod.mk.inj heq
        rw [hempty j] at hp
        cases hp
      · exact h.mapped d' hd' k u ρ hk hold j p π' hp

theorem setRef (h : DirsSafe B D σ) (p : ℕ) (v : BitVec 16) : DirsSafe B D (σ.setRef p v) :=
  h.of_links rfl h.head (by rw [link_setRef]; exact h.link)

/-! ### The page operations -/

theorem pageAlloc (h : DirsSafe B D σ) {r : Option ℕ}
    (hrun : Jos.pageAlloc B allocZero σ = .ok (r, σ')) :
    DirsSafe B D σ' ∧ ∀ p, r = some p → Usable B D p ∧ σ'.mem p = fun _ => 0#32 := by
  unfold Jos.pageAlloc at hrun
  split at hrun
  · obtain ⟨rfl, rfl⟩ := Prod.mk.inj (Except.ok.inj hrun)
    exact ⟨h, fun p hp => by cases hp⟩
  · next page hhead =>
    have hu : Usable B D page := h.head page hhead
    have hz : allocZero &&& allocZero ≠ 0#32 := by decide
    simp only [if_pos hz] at hrun
    obtain ⟨kva, hkva, hret⟩ := bind_eq_ok.mp hrun
    rw [page2kva_of_lt hu.1] at hkva
    obtain rfl := Except.ok.inj hkva
    obtain ⟨rfl, rfl⟩ := Prod.mk.inj (Except.ok.inj hret)
    have hlt : page < 2 ^ 20 := Nat.lt_of_lt_of_le hu.1 B.npages_le
    rw [frameAt_add_kernbase, pgnum_page2pa hlt]
    -- the page is off the list, and then cleared
    have hlinks : DirsSafe B D { σ.setLink page none with pageFreeList := σ.link page } := by
      refine h.of_links ?_ (h.link page) ?_
      · rfl
      intro q p hq
      change (σ.setLink page none).link q = some p at hq
      rw [link_setLink] at hq
      by_cases hqp : q = page
      · rw [hqp, Function.update_self] at hq
        cases hq
      · rw [Function.update_of_ne hqp] at hq
        exact h.link q p hq
    constructor
    · apply hlinks.setFrame hu.2
      intro j p π hp
      rw [entryOf_zero] at hp
      cases hp
    · intro p hp
      obtain rfl := Option.some.inj hp
      exact ⟨hu, Function.update_self ..⟩

theorem pageDecref (h : DirsSafe B D σ) {p : ℕ} (hp : Usable B D p)
    (hrun : Jos.pageDecref p σ = .ok σ') : DirsSafe B D σ' := by
  have h₁ := h.setRef p (σ.ref p - 1#16)
  unfold Jos.pageDecref at hrun
  dsimp only at hrun
  set σ₁ := σ.setRef p (σ.ref p - 1#16)
  split at hrun
  · -- the page goes to the head of the free list, and none of the directories is on it
    unfold Jos.pageFree at hrun
    split at hrun
    · cases hrun
    · obtain rfl := Except.ok.inj hrun
      refine h₁.of_links ?_ ?_ ?_
      · rfl
      · intro q hq
        rw [← Option.some.inj hq]
        exact hp
      · intro q r hr
        change (σ₁.setLink p σ₁.pageFreeList).link q = some r at hr
        rw [link_setLink] at hr
        by_cases hqp : q = p
        · rw [hqp, Function.update_self] at hr
          exact h₁.head r hr
        · rw [Function.update_of_ne hqp] at hr
          exact h₁.link q r hr
  · obtain rfl := Except.ok.inj hrun
    exact h₁

/-- The end of a walk points into the page table of the directory entry. -/
theorem walkTable_frame {pde va : Word} {pte : PtePtr}
    (hrun : walkTable B pde va σ = .ok (some pte, σ')) : frameAt pte.1 = pgnum (pteAddr pde) := by
  obtain ⟨kva, hkva, hret⟩ := bind_eq_ok.mp hrun
  obtain rfl := Option.some.inj (Prod.mk.inj (Except.ok.inj hret)).1
  obtain ⟨-, rfl⟩ := kaddr_eq_ok.mp hkva
  exact frameAt_add_kernbase _

/-- A walk of a page directory below `UTOP` ends in the page table of its entry. -/
theorem pgdirWalk (h : DirsSafe B D σ) {pgdir va : Word} {create : Bool} {r : Option PtePtr}
    (hva : va < utop) (hrun : Jos.pgdirWalk B pgdir va create σ = .ok (r, σ')) :
    DirsSafe B D σ' ∧ ∀ pte, r = some pte →
      ∃ π, entryOf (σ'.mem (frameAt pgdir) (pdx va)) = some (frameAt pte.1, π) := by
  have hi := (lt_utop_iff va).mp hva
  unfold Jos.pgdirWalk at hrun
  dsimp only at hrun
  split at hrun
  · -- the table is there
    next hpres =>
    obtain rfl := walkTable_state hrun
    refine ⟨h, ?_⟩
    rintro pte rfl
    rw [walkTable_frame hrun]
    exact ⟨_, entryOf_some hpres⟩
  · split at hrun
    · obtain ⟨⟨page, σ₁⟩, halloc, hrest⟩ := bind_eq_ok.mp hrun
      obtain ⟨h₁, hpage⟩ := h.pageAlloc halloc
      cases page with
      | none =>
        obtain ⟨rfl, rfl⟩ := Prod.mk.inj (Except.ok.inj hrest)
        exact ⟨h₁, fun pte hp => by cases hp⟩
      | some page =>
        -- a new table is full of zeros, so the directory leads nowhere new
        obtain ⟨hu, hzero⟩ := hpage page rfl
        have hlt : page < 2 ^ 20 := Nat.lt_of_lt_of_le hu.1 B.npages_le
        have hentry := entryOf_table hlt
        have hempty : ∀ j, entryOf ((σ₁.incRef page).mem page j) = none := by
          intro j
          change entryOf (σ₁.mem page j) = none
          rw [hzero]
          exact entryOf_zero
        obtain rfl := walkTable_state hrest
        refine ⟨(h₁.setRef page _).setPde hi hentry hu hempty, ?_⟩
        rintro pte rfl
        have hread : ((σ₁.incRef page).store (pgdir, pdx va)
            (page2pa page ||| pteP ||| pteU ||| pteW)).load (pgdir, pdx va) =
            page2pa page ||| pteP ||| pteU ||| pteW := by
          change ((σ₁.incRef page).setWord (frameAt pgdir) (pdx va) _).mem (frameAt pgdir)
            (pdx va) = _
          rw [setWord_mem_self, Function.update_self]
        rw [walkTable_frame hrest, hread]
        exact ⟨_, by
          change entryOf (((σ₁.incRef page).setWord (frameAt pgdir) (pdx va) _).mem (frameAt pgdir)
            (pdx va)) = _
          rw [setWord_mem_self, Function.update_self, hentry, (entryOf_eq_some.mp hentry).2.1]⟩
    · obtain ⟨rfl, rfl⟩ := Prod.mk.inj (Except.ok.inj hrun)
      exact ⟨h, fun pte hp => by cases hp⟩

theorem pageRemove (h : DirsSafe B D σ) {pgdir va : Word} (hd : frameAt pgdir ∈ D)
    (hva : va < utop) (hrun : Jos.pageRemove B cpu pgdir va σ = .ok σ') : DirsSafe B D σ' := by
  have hi := (lt_utop_iff va).mp hva
  obtain ⟨⟨found, σ₁⟩, hlook, hrest⟩ := bind_eq_ok.mp hrun
  obtain rfl := pageLookup_state hlook
  cases found with
  | none =>
    obtain rfl := Except.ok.inj hrest
    exact h
  | some u =>
    obtain ⟨page, pte⟩ := u
    obtain ⟨⟨pte', σ₂⟩, hwalk, hlook⟩ := bind_eq_ok.mp hlook
    obtain rfl := pgdirWalk_false hwalk
    cases pte' with
    | none => cases hlook
    | some pte' =>
      simp only at hlook hrest
      split at hlook
      · next hpres =>
        obtain ⟨page', hpage, hret⟩ := bind_eq_ok.mp hlook
        obtain ⟨hfound, -⟩ := Prod.mk.inj (Except.ok.inj hret)
        obtain ⟨rfl, rfl⟩ := Prod.mk.inj (Option.some.inj hfound)
        rw [if_pos hpres] at hrest
        obtain ⟨σ₃, hdec, hret⟩ := bind_eq_ok.mp hrest
        obtain rfl := Except.ok.inj hret
        -- the entry is in a page table, and maps a page that is no directory
        obtain ⟨π, ht⟩ := (h.pgdirWalk hva hwalk).2 pte' rfl
        have hnt := h.table _ hd _ _ _ hi ht
        obtain ⟨hlt, rfl⟩ := pa2page_eq_ok.mp hpage
        have hnp := h.mapped _ hd _ _ _ hi ht pte'.2 _ _ (entryOf_some hpres)
        have hcleared : DirsSafe B D (σ₂.store pte' 0#32) := by
          apply h.setWord hnt
          intro p ρ hp
          rw [entryOf_zero] at hp
          cases hp
        have h₃ := hcleared.pageDecref ⟨hlt, hnp⟩ hdec
        -- the TLB is no memory
        unfold tlbInvalidate
        split
        · exact h₃.of_links rfl h₃.head h₃.link
        · split
          · exact h₃.of_links rfl h₃.head h₃.link
          · exact h₃
      · cases hlook

theorem pageInsert (h : DirsSafe B D σ) {pgdir va perm : Word} {pp : ℕ} {r : ℤ}
    (hd : frameAt pgdir ∈ D) (hva : va < utop) (hperm : perm.toNat < 4096) (hpp : Usable B D pp)
    (hrun : Jos.pageInsert B cpu pgdir pp va perm σ = .ok (r, σ')) : DirsSafe B D σ' := by
  have hi := (lt_utop_iff va).mp hva
  obtain ⟨⟨pte, σ₁⟩, hwalk, hrest⟩ := bind_eq_ok.mp hrun
  obtain ⟨h₁, hpte⟩ := h.pgdirWalk hva hwalk
  cases pte with
  | none =>
    obtain ⟨-, rfl⟩ := Prod.mk.inj (Except.ok.inj hrest)
    exact h₁
  | some pte =>
    obtain ⟨π, ht⟩ := hpte pte rfl
    have hnt := h₁.table _ hd _ _ _ hi ht
    obtain ⟨σ₂, hold, rfl⟩ := pageInsertAt_ok hrest
    -- `pp_ref` is incremented before the old page is removed
    have hinc := h₁.setRef pp (σ₁.ref pp + 1#16)
    have h₂ : DirsSafe B D σ₂ := by
      obtain hrem | rfl := hold
      · exact hinc.pageRemove hd hva hrem
      · exact hinc
    apply h₂.setWord hnt
    intro p ρ hp
    have hlt : pp < 2 ^ 20 := Nat.lt_of_lt_of_le hpp.1 B.npages_le
    rw [entryOf_page2pa hlt hperm] at hp
    rw [← (Prod.mk.inj (Option.some.inj hp)).1]
    exact hpp.2

end DirsSafe

/-! ### Runs of `page_insert` and `page_remove` -/

/-- The page directories of the environments. -/
def envDirs (σ : State) : Set ℕ := {d | ∃ e, Live σ e ∧ frameAt (σ.envs e).envPgdir = d}

theorem SameTable.envDirs (h : SameTable σ σ') : envDirs σ' = envDirs σ := by
  unfold Jos.envDirs Live
  rw [h.envs]

/-- `page_insert` and `page_remove` at user addresses of any environment. The page that
is mapped is one of the machine and no page directory, and its permissions are the low
twelve bits of an entry. -/
def MemOp.Maps (B : Boot) (σ : State) : MemOp → Prop
  | .pageInsert _ e pp va perm =>
    Live σ e ∧ va < utop ∧ perm.toNat < 4096 ∧ pp < B.npages ∧ pp ∉ envDirs σ
  | .pageRemove _ e va => Live σ e ∧ va < utop
  | _ => False

/-- One of them, when it returns. -/
structure MapStep (B : Boot) (σ : State) (op : MemOp) (σ' : State) : Prop where
  maps : op.Maps B σ
  exec : op.exec B σ = .ok σ'

theorem DirsSafe.step {op : MemOp} (h : DirsSafe B (envDirs σ) σ) (hs : MapStep B σ op σ') :
    DirsSafe B (envDirs σ') σ' := by
  obtain ⟨hmaps, hexec⟩ := hs
  cases op with
  | pageInsert cpu e pp va perm =>
    obtain ⟨he, hva, hperm, hpp⟩ := hmaps
    obtain ⟨⟨r, σ₁⟩, hrun, rfl⟩ := map_eq_ok.mp hexec
    rw [(pageInsert_table hrun).envDirs]
    exact h.pageInsert ⟨e, he, rfl⟩ hva hperm hpp hrun
  | pageRemove cpu e va =>
    obtain ⟨he, hva⟩ := hmaps
    rw [(pageRemove_table hexec).envDirs]
    exact h.pageRemove ⟨e, he, rfl⟩ hva hexec
  | pageAlloc flags => exact absurd hmaps id
  | pageFree pp => exact absurd hmaps id
  | envAlloc parentId => exact absurd hmaps id
  | envFree cpu e => exact absurd hmaps id
  | pgdirWalk e va => exact absurd hmaps id
  | kernWalk va => exact absurd hmaps id

/-- The page directories are safe in every state that the kernel reaches. -/
theorem UpperInv.dirsSafe (h : UpperInv B σ) : DirsSafe B (envDirs σ) σ := by
  obtain ⟨t, free, efree, hinv, hw⟩ := h
  have hdir : ∀ e, Live σ e → dirFrame B σ (some e) = some (frameAt (σ.envs e).envPgdir) :=
    fun e he => hinv.env.dirFrame_live he
  have hslot : ∀ e, Live σ e → slotRef B σ (.dir e) = some (frameAt (σ.envs e).envPgdir) := by
    intro e he
    rw [slotRef_dir, hdir e he]
  have husable : ∀ p ∈ free, Usable B (envDirs σ) p := by
    intro p hp
    refine ⟨(hinv.page.free_managed p hp).1, ?_⟩
    rintro ⟨e, he, rfl⟩
    exact hinv.page.slot_ne_of_mem hp (.dir e) (hslot e he)
  refine ⟨?_, ?_, ?_, ?_, ?_, ?_⟩
  · intro p hp
    have hchain := hinv.page.chain
    rw [hp] at hchain
    obtain ⟨rest, rfl, -⟩ := Chain.some_iff.mp hchain
    exact husable p List.mem_cons_self
  · intro q p hq
    by_cases hfree : q ∈ free
    · exact husable p (hinv.page.chain.next_mem hfree hq)
    · rw [hinv.page.link_none q hfree] at hq
      cases hq
  · rintro d ⟨e, he, rfl⟩
    exact hw.own e he
  · rintro d ⟨e, he, rfl⟩ i u π hu
    by_cases hi : i.val < 955
    · exact (hinv.page.slot_managed _ u (Separated.slotRef_pde (hdir e he)
        (tracked_of_lt hi _) hu)).1
    by_cases huvpt : i = pdx uvpt
    · rw [huvpt, hw.own e he] at hu
      obtain ⟨rfl, -⟩ := Prod.mk.inj (Option.some.inj hu)
      exact (hinv.page.slot_managed _ _ (hslot e he)).1
    · -- an entry of the kernel's directory: that of `UENVS`
      rw [hw.copy e he i (by omega) huvpt] at hu
      exact (hinv.page.slot_managed _ u (Separated.slotRef_pde (a := none) rfl huvpt hu)).1
  · rintro d ⟨e, he, rfl⟩ i u π hi hu ⟨e', he', heq⟩
    exact hinv.page.separated.table_ne_dirFrame (hdir e he) (hdir e' he') (tracked_of_lt hi _) hu
      heq
  · rintro d ⟨e, he, rfl⟩ i u π hi hu j p π' hp ⟨e', he', rfl⟩
    -- what maps a directory would be its only slot
    have hpte : slotRef B σ (.pte (some e) i j) = some (frameAt (σ.envs e').envPgdir) := by
      rw [slotRef, slots_pte (hdir e he) hi hu, hp]
      rfl
    have hc := hinv.page.unique (.dir e') _ _ trivial (hslot e' he') hpte
    cases hc

/-! ### The addresses -/

/-- `uvpd` of `lib/entry.S`. -/
def uvpd : Word := uvpt + (uvpt >>> 12) * 4#32

/-- `&uvpt[PGNUM(va)]`. -/
def uvptEntry (va : Word) : Word := uvpt + BitVec.ofNat 32 (4 * pgnum va)

/-- `&uvpd[PDX(va)]`. -/
def uvpdEntry (va : Word) : Word := uvpd + BitVec.ofNat 32 (4 * (pdx va).val)

/-- The word of its page that an address is in. -/
def pgword (va : Word) : Fin 1024 := ⟨pgoff va / 4, by
  rw [pgoff_eq]
  omega⟩

theorem uvptEntry_toNat (va : Word) :
    (uvptEntry va).toNat = 0xEF400000 + 4 * (va.toNat / 4096) := by
  have hva := va.isLt
  rw [uvptEntry, BitVec.toNat_add, BitVec.toNat_ofNat, pgnum_eq,
    show uvpt.toNat = 0xEF400000 by decide]
  omega

theorem uvpdEntry_toNat (va : Word) : (uvpdEntry va).toNat = 0xEF7BD000 + 4 * (pdx va).val := by
  have hi := (pdx va).isLt
  rw [uvpdEntry, BitVec.toNat_add, BitVec.toNat_ofNat, show uvpd.toNat = 0xEF7BD000 by decide]
  omega

theorem pdx_uvptEntry (va : Word) : pdx (uvptEntry va) = pdx uvpt := by
  have hva := va.isLt
  apply Fin.ext
  rw [pdx_val, pdx_uvpt, uvptEntry_toNat]
  change _ = 957
  omega

theorem ptx_uvptEntry (va : Word) : ptx (uvptEntry va) = pdx va := by
  have hva := va.isLt
  apply Fin.ext
  rw [ptx_val, pdx_val, uvptEntry_toNat]
  omega

theorem pgword_uvptEntry (va : Word) : pgword (uvptEntry va) = ptx va := by
  apply Fin.ext
  rw [ptx_val]
  change pgoff (uvptEntry va) / 4 = _
  rw [pgoff_eq, uvptEntry_toNat]
  omega

theorem pdx_uvpdEntry (va : Word) : pdx (uvpdEntry va) = pdx uvpt := by
  have hi := (pdx va).isLt
  apply Fin.ext
  rw [pdx_val, pdx_uvpt, uvpdEntry_toNat]
  change _ = 957
  omega

theorem ptx_uvpdEntry (va : Word) : ptx (uvpdEntry va) = pdx uvpt := by
  have hi := (pdx va).isLt
  apply Fin.ext
  rw [ptx_val, pdx_uvpt, uvpdEntry_toNat]
  change _ = 957
  omega

theorem pgword_uvpdEntry (va : Word) : pgword (uvpdEntry va) = pdx va := by
  have hi := (pdx va).isLt
  apply Fin.ext
  change pgoff (uvpdEntry va) / 4 = _
  rw [pgoff_eq, uvpdEntry_toNat]
  omega

/-! ### What is seen there -/

/-- The word of physical memory that an access to `va` reaches while the processor runs
on the page directory of `e`: its frame and its place in the frame. -/
def x86Word (σ : State) (e : Fin nenv) (va : Word) : Option (ℕ × Fin 1024) :=
  (translate σ e va).map fun w => (w.2.2, pgword va)

/-- The virtual page table of `e` is right for the address `va`. -/
structure VirtualTable (B : Boot) (σ : State) (e : Fin nenv) (va : Word) : Prop where
  /-- There is an entry to see when the directory has a page table for `va`. -/
  seen_iff : x86Word σ e (uvptEntry va) ≠ none ↔ present (σ.load ((σ.envs e).envPgdir, pdx va))
  /-- It is the one `pgdir_walk` returns. -/
  walk : present (σ.load ((σ.envs e).envPgdir, pdx va)) → ∃ pte : PtePtr,
    pgdirWalk B (σ.envs e).envPgdir va false σ = .ok (some pte, σ) ∧
      x86Word σ e (uvptEntry va) = some (frameAt pte.1, pte.2)
  /-- At `uvpd` is the directory itself. -/
  dir : x86Word σ e (uvpdEntry va) = some (frameAt (σ.envs e).envPgdir, pdx va)
  readOnly : ∀ p, ¬UserWrites σ e (uvptEntry va) p ∧ ¬UserWrites σ e (uvpdEntry va) p

/-- What the processor finds in the table of `UVPT` is an entry of the directory. -/
theorem DirsSafe.translate_uvpt (h : DirsSafe B (envDirs σ) σ) (he : Live σ e) {a : Word}
    (ha : pdx a = pdx uvpt) : translate σ e a =
      (entryOf (σ.mem (frameAt (σ.envs e).envPgdir) (ptx a))).map fun u => (5#12, u.2, u.1) := by
  unfold translate x86Walk
  rw [ha, h.own _ ⟨e, he, rfl⟩]
  rfl

theorem DirsSafe.virtualTable (h : DirsSafe B (envDirs σ) σ) (he : Live σ e) (va : Word) :
    VirtualTable B σ e va := by
  have hpte : x86Word σ e (uvptEntry va) =
      (entryOf (σ.mem (frameAt (σ.envs e).envPgdir) (pdx va))).map fun u => (u.1, ptx va) := by
    unfold x86Word
    rw [h.translate_uvpt he (pdx_uvptEntry va), ptx_uvptEntry, pgword_uvptEntry, Option.map_map]
    rfl
  have hreadOnly : ∀ a p, pdx a = pdx uvpt → ¬UserWrites σ e a p := by
    -- `PTE_W` is not set in the directory entry of `UVPT`
    rintro a p ha ⟨π₁, π₂, htr, ⟨-, hw⟩, -⟩
    rw [h.translate_uvpt he ha] at htr
    obtain ⟨u, -, hu⟩ := Option.map_eq_some_iff.mp htr
    obtain ⟨rfl, -⟩ := Prod.mk.inj hu
    exact absurd hw (by decide)
  refine ⟨?_, ?_, ?_, fun p => ⟨hreadOnly _ p (pdx_uvptEntry va), hreadOnly _ p (pdx_uvpdEntry va)⟩⟩
  · rw [hpte, Ne, Option.map_eq_none_iff, entryOf_eq_none, Bool.not_eq_false]
    rfl
  · intro hpres
    have hentry := entryOf_some hpres
    have hlt := h.entry _ ⟨e, he, rfl⟩ _ _ _ hentry
    refine ⟨(pteAddr (σ.load ((σ.envs e).envPgdir, pdx va)) + kernbase, ptx va), ?_, ?_⟩
    · simp only [Jos.pgdirWalk, if_pos hpres, walkTable]
      rw [kaddr_of_lt hlt]
      rfl
    · rw [hpte, show entryOf (σ.mem (frameAt (σ.envs e).envPgdir) (pdx va)) = _ from hentry,
        frameAt_add_kernbase]
      rfl
  · unfold x86Word
    rw [h.translate_uvpt he (pdx_uvpdEntry va), ptx_uvpdEntry, h.own _ ⟨e, he, rfl⟩,
      pgword_uvpdEntry]
    rfl

/-- In every state that `page_insert` and `page_remove` make of one that the kernel has
reached, the virtual page tables of all environments are right for every address. -/
theorem uvpt_faithful (h₀ : Booted B σ₀) (hinit : MemInited B σ₀ σ) {ops maps : List MemOp}
    {σ₁ : State} (hrun : Run (UserStep B) (envInit σ) ops σ₁) (hmaps : Run (MapStep B) σ₁ maps σ')
    (he : Live σ' e) (va : Word) : VirtualTable B σ' e va := by
  have hsafe : DirsSafe B (envDirs σ') σ' :=
    hmaps.invariant (P := fun τ => DirsSafe B (envDirs τ) τ) (fun _ _ _ h hs => h.step hs)
      (hinit.run h₀ hrun).dirsSafe
  exact hsafe.virtualTable he va

/-- The first environment of the small machine, at the address of its own virtual page
table. -/
theorem uvpt_faithful_smallMachine : ∃ σ σ', MapStep smallMachine σ (.pageRemove 0 0 0#32) σ' ∧
    Live σ' 0 ∧ VirtualTable smallMachine σ' 0 uvpt := by
  obtain ⟨σ, σ₁, hinit, hrun, hlive⟩ := smallMachine_firstEnv
  obtain ⟨t, free, efree, hinv, -⟩ := hinit.run smallMemory_booted hrun
  obtain ⟨σ₂, hrem, -⟩ := hinv.pageRemove 0 hlive (show 0#32 < utop by decide)
  have hstep : MapStep smallMachine σ₁ (.pageRemove 0 0 0#32) σ₂ := ⟨⟨hlive, by decide⟩, hrem⟩
  have hlive₂ : Live σ₂ 0 := by
    rw [Live, (pageRemove_table hrem).envs]
    exact hlive
  exact ⟨σ₁, σ₂, hstep, hlive₂,
    uvpt_faithful smallMemory_booted hinit hrun (.cons hstep .nil) hlive₂ uvpt⟩

end Jos
