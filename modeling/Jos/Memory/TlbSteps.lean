import Jos.Environment.Smp
import Jos.Kern.Stepwise

/-!
# The kernel computes what it computes, with or without a TLB

The stepwise functions of `Jos.Kern.Stepwise` run with a TLB that fills up while they
run. They do not look at it, so with the TLB out of sight (`hideTlb`) they compute the
functions of `Jos.Kern.Pmap` and `Jos.Kern.Env`, and `region_alloc`, in every interleaving: one
theorem `computes_f` for each function `f`, put together from those of the functions it calls.

`load_icode` is not among them. It writes through user addresses, so what it does
depends on the TLB; that the TLB makes no difference there either needs its coherence.
-/

namespace Jos

variable {B : Boot} {σ σ' : State} {cpu : ℕ} {α : Type}

/-- The state without what the TLB of `cpu` has cached. -/
def hideTlb (cpu : ℕ) (σ : State) : State := σ.setTlb cpu []

/-- The second of two writes to the record of a processor is the one that counts. -/
theorem setCpu_setCpu (σ : State) (cpu : ℕ) (v w : CpuInfo) :
    (σ.setCpu cpu v).setCpu cpu w = σ.setCpu cpu w := by
  unfold State.setCpu
  rw [Function.update_idem]

@[simp] theorem setCpu_cpus (σ : State) (cpu : ℕ) (v : CpuInfo) : (σ.setCpu cpu v).cpus cpu = v :=
  Function.update_self ..

/-- So it is for what is cached. -/
theorem setTlb_setTlb (σ : State) (cpu : ℕ) (l l' : List (ℕ × Word)) :
    (σ.setTlb cpu l).setTlb cpu l' = σ.setTlb cpu l' := by
  unfold State.setTlb
  rw [setCpu_setCpu, setCpu_cpus]

/-- Putting back what is cached changes nothing. -/
theorem setTlb_self {l : List (ℕ × Word)} (h : (σ.cpus cpu).tlb = l) : σ.setTlb cpu l = σ := by
  subst h
  unfold State.setTlb State.setCpu
  rw [Function.update_eq_self]

/-- What is cached says nothing about which environments run. -/
theorem setTlb_curenv (σ : State) (cpu : ℕ) (l : List (ℕ × Word)) :
    (σ.setTlb cpu l).curenv = σ.curenv :=
  funext fun c => (SameTable.setCpu (σ := σ) (v := { σ.cpus cpu with tlb := l }) rfl).curenv c

theorem setTlb_tlb (σ : State) (cpu : ℕ) (l : List (ℕ × Word)) :
    ((σ.setTlb cpu l).cpus cpu).tlb = l := by
  rw [State.setTlb, setCpu_cpus]

/-- The page directory in `cr3` stays. -/
theorem setTlb_cr3 (σ : State) (cpu : ℕ) (l : List (ℕ × Word)) :
    ((σ.setTlb cpu l).cpus cpu).cr3 = (σ.cpus cpu).cr3 := by
  rw [State.setTlb, setCpu_cpus]

theorem hideTlb_setTlb (σ : State) (cpu : ℕ) (l : List (ℕ × Word)) :
    hideTlb cpu (σ.setTlb cpu l) = hideTlb cpu σ := setTlb_setTlb σ cpu l []

/-- What the hardware caches is out of sight. -/
theorem Fill.hideTlb (h : Fill cpu σ σ') : hideTlb cpu σ' = hideTlb cpu σ := by
  obtain ⟨n, pte, -, -, rfl⟩ := h
  exact hideTlb_setTlb _ _ _

theorem fills_hideTlb (h : Relation.ReflTransGen (Fill cpu) σ σ') :
    hideTlb cpu σ' = hideTlb cpu σ := by
  induction h with
  | refl => rfl
  | tail _ hstep ih => rw [hstep.hideTlb, ih]

/-- With the TLB out of sight, a piece of kernel code computes a function. -/
abbrev Computes (cpu : ℕ) (x : Kernel α) (f : State → Except Panic (α × State)) : Prop :=
  Implements (hideTlb cpu) x f

/-- A step that the TLB has nothing to do with. -/
theorem computes_instr {f : State → Except Panic (α × State)}
    (hf : ∀ σ a σ', f σ = .ok (a, σ') → (σ'.cpus cpu).tlb = (σ.cpus cpu).tlb) :
    Computes cpu (instr cpu f) f where
  sound := by
    -- the TLB fills up first, and that is not seen
    rintro σ a σ' ⟨σ₁, hfill, hrun⟩
    rw [← fills_hideTlb hfill]
    cases hr : f (σ₁.setTlb cpu []) with
    | error p =>
      simp only [hr] at hrun
      cases hrun
    | ok r =>
      simp only [hr] at hrun
      cases hrun
      -- `f` runs with the entries out of sight and leaves none of its own
      have htlb : (r.2.cpus cpu).tlb = [] := (hf _ _ _ hr).trans (setTlb_tlb ..)
      rw [hideTlb_setTlb, hideTlb, hideTlb, hr, setTlb_self htlb]
  complete := by
    intro σ a τ hrun
    -- nothing need be cached before, and the entries that are there stay
    refine ⟨τ.setTlb cpu (σ.cpus cpu).tlb, ⟨σ, .refl, ?_⟩, ?_⟩
    · have hr : f (σ.setTlb cpu []) = .ok (a, τ) := hrun
      simp only [hr]
      rfl
    · rw [hideTlb_setTlb, hideTlb, setTlb_self ((hf _ _ _ hrun).trans (setTlb_tlb ..))]

/-- An instruction that uses the TLB, if it does the same to all that is in sight. -/
theorem computes_hardware {f : State → Except Panic State}
    (hf : ∀ σ, f (hideTlb cpu σ) = (f σ).map (hideTlb cpu)) :
    Computes cpu (hardware cpu f) fun σ => done (f σ) := by
  -- `lcr3` and `invlpg` drop entries, which is not seen either
  refine Implements.atom (fun σ σ' h => h.hideTlb) fun σ => ?_
  rw [hf]
  cases f σ <;> rfl

namespace Stepwise

/-- An instruction that only reads. -/
theorem computes_read (f : State → α) :
    Computes cpu (read cpu f) fun σ => .ok (f σ, σ) :=
  computes_instr fun σ a σ' h => by cases h; rfl

/-- One that writes something other than the TLB. -/
theorem computes_write {f : State → State} (hf : ∀ σ, ((f σ).cpus cpu).tlb = (σ.cpus cpu).tlb) :
    Computes cpu (write cpu f) fun σ => .ok ((), f σ) :=
  computes_instr fun σ a σ' h => by cases h; exact hf σ

/-- Code under a condition. -/
theorem computes_when (c : Bool) {x : Kernel Unit} {f : State → Except Panic State}
    (hx : Computes cpu x fun σ => done (f σ)) :
    Computes cpu (when c x) fun σ => done (if c then f σ else .ok σ) :=
  Implements.congr (.ite hx (.pure ())) fun σ => by cases c <;> rfl

theorem computes_load (pte : PtePtr) :
    Computes cpu (load cpu pte) fun σ => .ok (σ.load pte, σ) := computes_read _

theorem computes_store (pte : PtePtr) (w : Word) :
    Computes cpu (store cpu pte w) fun σ => .ok ((), σ.store pte w) :=
  computes_write fun _ => rfl

/-- Writing a page word by word writes the page. -/
theorem foldl_store (kva : Word) (c : Fin 1024 → Word) (l : List (Fin 1024)) (σ : State) :
    l.foldl (fun σ i => σ.store (kva, i) (c i)) σ =
      σ.setFrame (frameAt kva) fun i => if i ∈ l then c i else σ.mem (frameAt kva) i := by
  induction l generalizing σ with
  | nil =>
    simp only [List.foldl_nil, List.not_mem_nil, if_false]
    unfold State.setFrame
    rw [Function.update_eq_self]
  | cons i l ih =>
    rw [List.foldl_cons, ih]
    unfold State.store State.setWord State.setFrame
    simp only [Function.update_idem, Function.update_self]
    congr 2
    funext j
    -- a word written twice gets the same value both times
    by_cases hj : j ∈ l
    · rw [if_pos hj, if_pos (List.mem_cons_of_mem _ hj)]
    · rw [if_neg hj]
      by_cases hji : j = i
      · rw [hji, Function.update_self, if_pos List.mem_cons_self]
      · rw [Function.update_of_ne hji, if_neg]
        rw [List.mem_cons, not_or]
        exact ⟨hji, hj⟩

/-- A page is written word by word, with the hardware at work after each. -/
theorem computes_writePage (kva : Word) (c : Fin 1024 → Word) :
    Computes cpu (writePage cpu kva c) fun σ =>
      .ok ((), σ.setFrame (frameAt kva) c) := by
  have hstep : ∀ i, Computes cpu (store cpu (kva, i) (c i)) fun σ =>
      done ((fun σ i => .ok (σ.store (kva, i) (c i)) :
        State → Fin 1024 → Except Panic State) σ i) :=
    fun i => computes_store (kva, i) (c i)
  refine (Implements.forM hstep (List.finRange 1024)).congr fun σ => ?_
  have hfold : ∀ (l : List (Fin 1024)) (τ : State),
      l.foldlM (fun σ i => (.ok (σ.store (kva, i) (c i)) : Except Panic State)) τ =
        .ok (l.foldl (fun σ i => σ.store (kva, i) (c i)) τ) := by
    intro l
    induction l with
    | nil => exact fun τ => rfl
    | cons i l ih => exact fun τ => ih _
  rw [hfold, foldl_store]
  simp only [List.mem_finRange, if_true]
  rfl

/-- `page_free` changes `pages` and the free list only. -/
theorem pageFree_same {pp : ℕ} (h : Jos.pageFree pp σ = .ok σ') : SameData σ σ' := by
  unfold Jos.pageFree at h
  split at h
  · cases h
  · obtain rfl := Except.ok.inj h
    exact ⟨rfl, rfl, rfl, rfl, rfl⟩

/-- So does `page_decref`. -/
theorem pageDecref_same {pp : ℕ} (h : Jos.pageDecref pp σ = .ok σ') : SameData σ σ' := by
  simp only [Jos.pageDecref] at h
  split at h
  · have hfree := pageFree_same h
    exact ⟨hfree.mem, hfree.envs, hfree.envFreeList, hfree.cpus, hfree.addr⟩
  · obtain rfl := Except.ok.inj h
    exact ⟨rfl, rfl, rfl, rfl, rfl⟩

theorem computes_pageDecref (pp : ℕ) :
    Computes cpu (pageDecref cpu pp) fun σ => done (Jos.pageDecref pp σ) := by
  refine computes_instr fun σ u σ' h => ?_
  rw [(pageDecref_same (done_eq_ok.mp h)).cpus]

theorem computes_incRef (pp : ℕ) :
    Computes cpu (incRef cpu pp) fun σ => .ok ((), σ.incRef pp) := computes_write fun _ => rfl

/-- So does taking the first page off the list. -/
theorem unlink_same (σ : State) : SameData σ (unlink σ).2 := by
  unfold unlink
  split
  · exact ⟨rfl, rfl, rfl, rfl, rfl⟩
  · exact ⟨rfl, rfl, rfl, rfl, rfl⟩

/-- `page_alloc`: the page is taken off the list, and then cleared if that is asked for. -/
theorem computes_pageAlloc (flags : Word) :
    Computes cpu (pageAlloc B cpu flags) (Jos.pageAlloc B flags) := by
  have hunlink : Computes cpu (instr cpu fun σ => .ok (unlink σ)) fun σ => .ok (unlink σ) := by
    refine computes_instr fun σ a σ' h => ?_
    have hsame := (unlink_same σ).cpus
    rw [Except.ok.inj h] at hsame
    rw [hsame]
  -- the page is off the list in one instruction, and cleared afterwards word by word
  refine (hunlink.bind (g := fun page σ => page.elim (.ok (none, σ)) fun page =>
    if flags &&& allocZero ≠ 0#32 then do
      let kva ← page2kva B page
      return (some page, σ.setFrame (frameAt kva) fun _ => 0#32)
    else .ok (some page, σ)) ?_).congr ?_
  · intro page
    cases page with
    | none => exact .pure none
    | some page =>
      refine (Implements.ite (.compute_bind _ fun kva => ?_) (.pure (some page))).congr fun σ => rfl
      exact .write_bind (computes_writePage kva _) (.pure (some page))
  · intro σ
    unfold Jos.pageAlloc
    cases hfl : σ.pageFreeList with
    | none =>
      simp only [unlink, hfl]
      rfl
    | some page =>
      simp only [unlink, hfl]
      rfl

/-- Two continuations that agree behind a computation that may have nothing to return. -/
theorem bind_congr_option {β : Type} {x : Except Panic (Option α × State)}
    {f g : Option α × State → Except Panic β} (hnone : ∀ σ, f (none, σ) = g (none, σ))
    (hsome : ∀ a σ, f (some a, σ) = g (some a, σ)) : (x >>= f) = (x >>= g) := by
  cases x with
  | error p => rfl
  | ok r =>
    obtain ⟨a, σ⟩ := r
    cases a with
    | none => exact hnone σ
    | some a => exact hsome a σ

/-- The address of an entry is computed. -/
theorem computes_walkTable (pde va : Word) :
    Computes cpu (walkTable B pde va) (Jos.walkTable B pde va) :=
  .compute_bind _ fun _ => .pure _

/-- `pgdir_walk`, which enters a new page table if there is none and one is asked for. -/
theorem computes_pgdirWalk (pgdir va : Word) (create : Bool) :
    Computes cpu (pgdirWalk B cpu pgdir va create) (Jos.pgdirWalk B pgdir va create) := by
  refine Implements.congr (.read_bind (computes_load (pgdir, pdx va)) fun pde =>
    .ite (computes_walkTable pde va) (.ite ((computes_pageAlloc allocZero).bind
      (g := fun page σ => page.elim (.ok (none, σ)) fun page =>
        let σ := (σ.incRef page).store (pgdir, pdx va) (page2pa page ||| pteP ||| pteU ||| pteW)
        Jos.walkTable B (σ.load (pgdir, pdx va)) va σ) fun page => ?_)
      (.pure none))) fun σ => ?_
  · -- a new page table: it is counted, entered, and then walked
    cases page with
    | none => exact .pure none
    | some page =>
      exact .write_bind (computes_incRef page) (.write_bind (computes_store _ _)
        (.read_bind (computes_load _) fun pde => computes_walkTable pde va))
  · exact if_congr Iff.rfl rfl (if_congr Iff.rfl
      (bind_congr_option (fun _ => rfl) fun _ _ => rfl) rfl)

/-- `page_lookup` reads only. -/
theorem computes_pageLookup (pgdir va : Word) :
    Computes cpu (pageLookup B cpu pgdir va) (Jos.pageLookup B pgdir va) :=
  computes_instr fun σ r σ' h => by rw [pageLookup_state h]

/-- `lcr3` leaves nothing cached, whatever was. -/
theorem hideTlb_lcr3 (pa : Word) (σ : State) :
    Jos.lcr3 cpu pa (hideTlb cpu σ) = hideTlb cpu (Jos.lcr3 cpu pa σ) := by
  unfold hideTlb State.setTlb Jos.lcr3
  simp only [setCpu_setCpu, setCpu_cpus]

/-- `tlb_invalidate` touches what is cached and nothing else, and `curenv` decides whether it
does. -/
theorem hideTlb_tlbInvalidate (pgdir va : Word) (σ : State) :
    Jos.tlbInvalidate cpu pgdir va (hideTlb cpu σ) =
      hideTlb cpu (Jos.tlbInvalidate cpu pgdir va σ) := by
  have hinv : invlpg cpu va (hideTlb cpu σ) = hideTlb cpu (invlpg cpu va σ) := by
    unfold hideTlb State.setTlb invlpg
    simp only [setCpu_setCpu, setCpu_cpus, List.filter_nil]
  unfold Jos.tlbInvalidate
  rw [hideTlb, setTlb_curenv, ← hideTlb]
  -- the environment that is current is the same with the TLB out of sight
  cases σ.curenv cpu with
  | none => exact hinv
  | some e =>
    change (if (σ.envs e).envPgdir = pgdir then _ else _) = _
    by_cases hp : (σ.envs e).envPgdir = pgdir
    · simp only [if_pos hp]
      exact hinv
    · simp only [if_neg hp]

theorem computes_lcr3 (pa : Word) :
    Computes cpu (lcr3 cpu pa) fun σ => .ok ((), Jos.lcr3 cpu pa σ) :=
  computes_hardware fun σ => congrArg Except.ok (hideTlb_lcr3 pa σ)

theorem computes_tlbInvalidate (pgdir va : Word) :
    Computes cpu (tlbInvalidate cpu pgdir va) fun σ =>
      .ok ((), Jos.tlbInvalidate cpu pgdir va σ) :=
  computes_hardware fun σ => congrArg Except.ok (hideTlb_tlbInvalidate pgdir va σ)

/-- `page_remove`: the entry is cleared, the page let go and the TLB told, in the order of the
source. -/
theorem computes_pageRemove (pgdir va : Word) :
    Computes cpu (pageRemove B cpu pgdir va) fun σ => done (Jos.pageRemove B cpu pgdir va σ) := by
  refine Implements.congr ((computes_pageLookup pgdir va).bind
    (g := fun found σ => found.elim (.ok ((), σ)) fun r =>
      if present (σ.load r.2) then
        (Jos.pageDecref r.1 (σ.store r.2 0#32)) >>= fun σ =>
          .ok ((), Jos.tlbInvalidate cpu pgdir va σ)
      else .ok ((), σ)) fun found => ?_) fun σ => ?_
  · cases found with
    | none => exact .pure ()
    | some r =>
      obtain ⟨page, pte⟩ := r
      exact Implements.congr (.read_bind (computes_load pte) fun w =>
        .ite (.write_bind (computes_store pte 0#32) (.done_bind (computes_pageDecref page)
          (computes_tlbInvalidate pgdir va))) (.pure ())) fun σ => rfl
  · -- the instructions in sequence are the function
    unfold Jos.pageRemove
    cases Jos.pageLookup B pgdir va σ with
    | error p => rfl
    | ok r =>
      obtain ⟨found, σ₁⟩ := r
      cases found with
      | none => rfl
      | some r =>
        obtain ⟨page, pte⟩ := r
        simp only [ok_bind, Option.elim_some]
        split
        · cases Jos.pageDecref page (σ₁.store pte 0#32) <;> rfl
        · rfl

/-- The part of `page_insert` behind the walk. -/
theorem computes_pageInsertAt (pgdir : Word) (pp : ℕ) (va perm : Word) (pte : PtePtr) :
    Computes cpu (pageInsertAt B cpu pgdir pp va perm pte)
      (Jos.pageInsertAt B cpu pgdir pp va perm pte) := by
  refine Implements.congr (.write_bind (computes_incRef pp) (.read_bind (computes_load pte) fun w =>
    .done_bind (computes_when (present w) (computes_pageRemove pgdir va))
      (.write_bind (computes_store pte _) (.pure 0)))) fun σ => ?_
  simp only [Jos.pageInsertAt]
  by_cases hpres : present ((σ.incRef pp).load pte) = true
  · simp only [if_pos hpres]
    rfl
  · simp only [if_neg hpres]
    rfl

/-- `page_insert` fails only when the walk finds no page table. -/
theorem computes_pageInsert (pgdir : Word) (pp : ℕ) (va perm : Word) :
    Computes cpu (pageInsert B cpu pgdir pp va perm) (Jos.pageInsert B cpu pgdir pp va perm) := by
  refine Implements.congr ((computes_pgdirWalk pgdir va true).bind
    (g := fun pte σ => pte.elim (.ok (-eNoMem, σ)) fun pte =>
      Jos.pageInsertAt B cpu pgdir pp va perm pte σ) fun pte => ?_) fun σ => ?_
  · -- no page table, or the entry in it
    cases pte with
    | none => exact .pure (-eNoMem)
    | some pte => exact computes_pageInsertAt pgdir pp va perm pte
  · exact bind_congr_option (fun _ => rfl) fun _ _ => rfl

/-- `env_setup_vm` copies the directory of the kernel word by word. -/
theorem computes_envSetupVm (e : Fin nenv) :
    Computes cpu (envSetupVm B cpu e) (Jos.envSetupVm B e) := by
  refine Implements.congr ((computes_pageAlloc allocZero).bind
    (g := fun p σ => p.elim (.ok (-eNoMem, σ)) fun p => do
      let σ := σ.incRef p
      let pgdir ← page2kva B p
      let σ := σ.setEnv e { σ.envs e with envPgdir := pgdir }
      let σ := σ.setFrame (frameAt pgdir) (σ.mem B.kernFrame)
      let pa ← paddr pgdir
      return (0, σ.store (pgdir, pdx uvpt) (pa ||| pteP ||| pteU))) fun p => ?_) fun σ => ?_
  · -- no page for the directory, or one that is filled from `kern_pgdir`
    cases p with
    | none => exact .pure (-eNoMem)
    | some p =>
      exact Implements.congr (.write_bind (computes_incRef p) (.compute_bind _ fun pgdir =>
        .write_bind (computes_write fun _ => rfl) (.read_bind (computes_read _) fun c =>
          .write_bind (computes_writePage pgdir c) (.compute_bind _ fun pa =>
            .write_bind (computes_store _ _) (.pure 0))))) fun σ => rfl
  · exact bind_congr_option (fun _ => rfl) fun _ _ => rfl

/-- `env_alloc`. -/
theorem computes_envAlloc (parentId : Word) :
    Computes cpu (envAlloc B cpu parentId) fun σ =>
      (Jos.envAlloc B parentId σ).map fun r => ((r.1, r.2.1), r.2.2) := by
  refine Implements.congr (.read_bind (computes_read fun σ => σ.envFreeList)
    (g := fun e σ => e.elim (.ok ((-eNoFreeEnv, none), σ)) fun e =>
      (Jos.envSetupVm B e σ) >>= fun r =>
        if r.1 < 0 then .ok ((r.1, none), r.2)
        else
          let σ := r.2.setEnv e (initEnv (r.2.envs e) e parentId)
          .ok ((0, some e), { σ with envFreeList := (σ.envs e).envLink })) fun e => ?_) fun σ => ?_
  · -- no free slot, or the first one of the list
    cases e with
    | none => exact .pure _
    | some e =>
      exact Implements.congr ((computes_envSetupVm e).bind fun r => .ite (c := r < 0) (.pure _)
        (.write_bind (computes_write fun _ => rfl) (.write_bind (computes_write fun _ => rfl)
          (.pure _)))) fun σ => rfl
  · -- the instructions in sequence are the function
    unfold Jos.envAlloc
    cases σ.envFreeList with
    | none => rfl
    | some e =>
      simp only [Option.elim_some]
      cases Jos.envSetupVm B e σ with
      | error p => rfl
      | ok r =>
        simp only [ok_bind]
        split <;> rfl

/-- One entry of a page table, in the loops of `env_free`. -/
theorem computes_unmapPte (pgdir pt : Word) (pdeno pteno : Fin 1024) :
    Computes cpu (unmapPte B cpu pgdir pt pdeno pteno) fun σ =>
      done (Jos.unmapPte B cpu pgdir pt pdeno σ pteno) :=
  .read_bind (computes_load (pt, pteno)) fun w =>
    computes_when (present w) (computes_pageRemove _ _)

/-- One page table of the environment: its entries, and then the table itself. -/
theorem computes_unmapPde (pgdir : Word) (pdeno : Fin 1024) :
    Computes cpu (unmapPde B cpu pgdir pdeno) fun σ =>
      done (Jos.unmapPde B cpu pgdir σ pdeno) := by
  refine Implements.congr (.read_bind (computes_load (pgdir, pdeno)) fun pde =>
    .ite (.compute_bind _ fun pt => .done_bind
      (.forM (fun j => computes_unmapPte pgdir pt pdeno j) _)
        (.write_bind (computes_store _ _) (.compute_bind _ fun page => computes_pageDecref page)))
      (.pure ())) fun σ => ?_
  unfold Jos.unmapPde
  split
  · simp only [done_bind]
  · rfl

/-- `env_free` leaves the directory that it is about to take apart. -/
theorem computes_switchAway (e : Fin nenv) :
    Computes cpu (hardware cpu (switchAway B cpu e)) fun σ => done (switchAway B cpu e σ) := by
  refine computes_hardware fun σ => ?_
  unfold switchAway
  rw [hideTlb, setTlb_curenv, ← hideTlb]
  split
  · cases paddr B.kernPgdir with
    | error p => rfl
    | ok pa => exact congrArg Except.ok (hideTlb_lcr3 pa σ)
  · rfl

/-- `env_free`. -/
theorem computes_envFree (e : Fin nenv) :
    Computes cpu (envFree B cpu e) fun σ => done (Jos.envFree B cpu e σ) := by
  refine Implements.congr (.done_bind (computes_switchAway e)
    (.read_bind (computes_read fun σ => (σ.envs e).envPgdir) fun pgdir =>
      .done_bind (.forM (fun i => computes_unmapPde pgdir i) userPdes)
        (.compute_bind _ fun pa => .write_bind (computes_write fun _ => rfl)
          (.compute_bind _ fun page => .done_bind (computes_pageDecref page)
            (computes_write fun _ => rfl))))) fun σ => ?_
  unfold Jos.envFree
  simp only [done_bind]
  rfl

theorem hideTlb_setCurenv (σ : State) (c : Option (Fin nenv)) :
    (hideTlb cpu σ).setCurenv cpu c = hideTlb cpu (σ.setCurenv cpu c) := by
  unfold hideTlb State.setTlb State.setCurenv
  simp only [setCpu_setCpu, setCpu_cpus]

theorem setCurenv_tlb (σ : State) (c : Option (Fin nenv)) :
    ((σ.setCurenv cpu c).cpus cpu).tlb = (σ.cpus cpu).tlb := by
  rw [State.setCurenv, setCpu_cpus]

/-- `sched_yield`, which switches to the directory of the kernel. -/
theorem computes_schedYield :
    Computes cpu (hardware cpu (schedYield B cpu)) fun σ => done (schedYield B cpu σ) := by
  refine computes_hardware fun σ => ?_
  have henvs : (hideTlb cpu σ).envs = σ.envs := rfl
  unfold schedYield
  rw [henvs, hideTlb_setCurenv]
  split
  · cases paddr B.kernPgdir with
    | error p => rfl
    | ok pa => exact congrArg Except.ok (hideTlb_lcr3 pa _)
  · rfl

/-- `env_destroy`, from any of its three branches. -/
theorem computes_envDestroy (e : Fin nenv) :
    Computes cpu (envDestroy B cpu e) fun σ => done (Jos.envDestroy B cpu e σ) := by
  refine Implements.congr (.read_bind (computes_read _) fun elsewhere =>
    .ite (c := elsewhere = true) (computes_write fun _ => rfl) (.done_bind (computes_envFree e)
      (.read_bind (computes_read _) fun own => .ite (c := own = true)
        (.write_bind (computes_write fun σ => setCurenv_tlb σ none) computes_schedYield)
        (.pure ())))) fun σ => ?_
  unfold Jos.envDestroy
  simp only [decide_eq_true_eq]
  split
  · rfl
  · rw [done_bind]
    congr 1
    funext σ₁
    split <;> rfl

/-- `env_run` makes `e` the current environment of its processor. -/
theorem takeOver_cpu (e : Fin nenv) (σ : State) :
    (takeOver cpu e σ).cpus cpu = { σ.cpus cpu with cpuEnv := some e } := by
  have hback : (putBack cpu σ).cpus = σ.cpus := by
    unfold putBack
    split
    · rfl
    · split <;> rfl
  change ((putBack cpu σ).setCurenv cpu (some e)).cpus cpu = _
  rw [State.setCurenv, setCpu_cpus, hback]

/-- `env_run`. -/
theorem computes_envRun (e : Fin nenv) :
    Computes cpu (envRun cpu e) fun σ => done (Jos.envRun cpu e σ) := by
  refine Implements.congr (.write_bind (computes_write fun σ => by rw [takeOver_cpu])
    (.read_bind (computes_read fun σ => (σ.envs e).envPgdir) fun pgdir =>
      .compute_bind _ fun pa => .write_bind (computes_lcr3 pa) (computes_write fun _ => rfl)))
    fun σ => ?_
  -- `env_run` is these steps in one piece
  rw [envRun_eq, done_bind]
  rfl

/-- The loop of `region_alloc`, by induction on the pages that are left. -/
theorem computes_regionAllocLoop (e : Fin nenv) (n : ℕ) (begin : Word) :
    Computes cpu (regionAllocLoop B cpu e n begin) fun σ =>
      done (Jos.regionAllocLoop B cpu e n begin σ) := by
  induction n generalizing begin with
  | zero => exact .pure ()
  | succ n ih =>
    refine Implements.congr ((computes_pageAlloc 0#32).bind
      (g := fun p σ => p.elim (.error ⟨"env region_alloc failed"⟩) fun p =>
        (Jos.pageInsert B cpu (σ.envs e).envPgdir p begin (pteW ||| pteU) σ) >>=
          fun r => done (Jos.regionAllocLoop B cpu e n (begin + pgsize) r.2)) fun p => ?_)
      fun σ => ?_
    · cases p with
      | none => exact .compute _
      | some p =>
        -- `env_pgdir` is read from the state that `page_alloc` leaves
        exact Implements.congr (.read_bind (computes_read fun σ => (σ.envs e).envPgdir) fun pgdir =>
          (computes_pageInsert pgdir p begin _).bind fun _ => ih (begin + pgsize)) fun σ => rfl
    · rw [Jos.regionAllocLoop, done_bind]
      refine bind_congr_option (fun _ => rfl) fun p σ => ?_
      exact (done_bind ..).symm

theorem computes_regionAlloc (e : Fin nenv) (va len : Word) :
    Computes cpu (regionAlloc B cpu e va len) fun σ => done (Jos.regionAlloc B cpu e va len σ) :=
  computes_regionAllocLoop e _ _

end Stepwise

end Jos
