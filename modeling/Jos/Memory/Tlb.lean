import Jos.Library.Cache
import Jos.Memory.AddressSpace
import Jos.Memory.TlbSteps

/-!
# What the TLB has cached

The TLB is coherent when every entry it has cached for a page below `UTOP` is what the
page directory in `cr3` has now (`TlbCoherent`). While the kernel runs this does not hold
all the time: between the store that empties a page table entry and `tlb_invalidate`, the
old entry may still be cached. `At B cpu a X τ σ` is the assertion that goes through all
of the kernel's code: the state is `τ` but for the TLB, the directory in `cr3` is that of
space `a`, and the TLB is right about every user page of `a` whose slot is not in `X`, the
slots that are being changed.

`Steady` is the triple for it. Its rules ask, for each step, what the step does to the
slots of the space (`Effect`); what an operation computes is known from `Computes`. In the
second half of the file the operations of `kern/pmap.c` start and end with `X` empty. The
one condition is that of `page_remove`: where the space it works on is the one in `cr3`,
`tlb_invalidate` must not skip the invalidation (`Flushes`).
-/

namespace Jos

variable {B : Boot} {σ σ' τ τ' : State} {cpu : ℕ} {a b : Space} {free : List ℕ} {held : ℕ → ℕ}

/-- The virtual pages below `UTOP`. -/
def UserPage (n : ℕ) : Prop := n < pgnum utop

/-- What the TLB of `cpu` has cached for pages below `UTOP` is what the page directory in
its `cr3` has now. -/
def TlbCoherent (cpu : ℕ) (σ : State) : Prop :=
  CoherentOn UserPage (walkPte σ (pgnum (σ.cpus cpu).cr3)) (σ.cpus cpu).tlb

/-! ### The walk and the slots -/

/-- The slot of a virtual page of a space. -/
def pageSlot (a : Space) (n : ℕ) : Slot := .pte a (vpnPdx n) (vpnPtx n)

/-- The entry that a slot was read from. -/
def pteWord (u : ℕ × BitVec 12) : Word := page2pa u.1 ||| u.2.setWidth 32

/-- What a TLB may have cached for the pages of a space. -/
def cacheable (B : Boot) (τ : State) (a : Space) (n : ℕ) : Option Word :=
  (slots B τ (pageSlot a n)).map pteWord

theorem userPage_iff {n : ℕ} : UserPage n ↔ n < 977920 := by
  rw [UserPage, pgnum_utop]

theorem pteWord_entryOf {w : Word} {u : ℕ × BitVec 12} (h : entryOf w = some u) :
    pteWord u = w := by
  obtain ⟨p, π⟩ := u
  obtain ⟨-, hp, hπ⟩ := entryOf_eq_some.mp h
  have hw := w.isLt
  rw [pgnum_pteAddr] at hp
  have hlow : (π.setWidth 32).toNat = w.toNat % 4096 := by
    rw [← hπ, BitVec.toNat_setWidth, BitVec.toNat_setWidth]
    omega
  apply BitVec.eq_of_toNat_eq
  change (page2pa p ||| π.setWidth 32).toNat = _
  rw [page2pa_or_toNat (by omega) (by omega), hlow, ← hp]
  omega

/-- For a page below `UTOP` the processor finds what the slot has. -/
theorem walkPte_eq {d n : ℕ} (hd : dirFrame B τ a = some d) (hn : UserPage n) :
    walkPte τ d n = cacheable B τ a n := by
  -- a page of user space has its table below the kernel's part of the directory
  have hi : (vpnPdx n).val < 955 := by
    have hlt := userPage_iff.mp hn
    rw [vpnPdx_val hlt]
    omega
  unfold walkPte cacheable pageSlot
  change ((entryOf (τ.mem d (vpnPdx n))).bind _) = _
  cases ht : entryOf (τ.mem d (vpnPdx n)) with
  | none =>
    rw [slots_pte_of_none hd ht]
    rfl
  | some t =>
    rw [slots_pte hd hi ht, Option.bind_some]
    change (if present (τ.mem t.1 (vpnPtx n)) then some (τ.mem t.1 (vpnPtx n)) else none) = _
    cases he : entryOf (τ.mem t.1 (vpnPtx n)) with
    | none =>
      rw [if_neg (not_present_of_entryOf he)]
      rfl
    | some u =>
      rw [if_pos (entryOf_eq_some.mp (show _ = some (u.1, u.2) from he)).1, Option.map_some,
        pteWord_entryOf he]

theorem pageSlot_eq_iff {n : ℕ} {va : Word} (hn : UserPage n) :
    pageSlot a n = .pte b (pdx va) (ptx va) ↔ a = b ∧ n = pgnum va := by
  rw [pageSlot, Slot.pte.injEq, vpn_eq_iff (userPage_iff.mp hn)]

/-! ### The assertion -/

/-- The pages of space `a` whose slots are not being changed. -/
def Settled (a : Space) (X : Set Slot) (n : ℕ) : Prop := UserPage n ∧ pageSlot a n ∉ X

/-- The state is `τ` but for the TLB of `cpu`, which runs on space `a` and is right about
the pages whose slots are not in `X`. -/
structure At (B : Boot) (cpu : ℕ) (a : Space) (X : Set Slot) (τ σ : State) : Prop where
  hidden : hideTlb cpu σ = τ
  dir : dirFrame B τ a = some (pgnum (τ.cpus cpu).cr3)
  coherent : CoherentOn (Settled a X) (cacheable B τ a) (σ.cpus cpu).tlb

/-- What a step may do to the slots of space `a` while the TLB has cached some of them:
those that are not in `X'` may be filled, but not changed. -/
structure Effect (B : Boot) (cpu : ℕ) (a : Space) (X X' : Set Slot) (τ τ' : State) : Prop where
  cr3 : (τ'.cpus cpu).cr3 = (τ.cpus cpu).cr3
  tlb : (τ'.cpus cpu).tlb = (τ.cpus cpu).tlb
  dir : dirFrame B τ' a = dirFrame B τ a
  sub : X ⊆ X'
  grow : ∀ i j u, .pte a i j ∉ X' → slots B τ (.pte a i j) = some u →
    slots B τ' (.pte a i j) = some u

section At

variable {X X' : Set Slot}

theorem hideTlb_tlb (σ : State) : ((hideTlb cpu σ).cpus cpu).tlb = [] := setTlb_tlb ..

theorem hideTlb_cr3 (σ : State) : ((hideTlb cpu σ).cpus cpu).cr3 = (σ.cpus cpu).cr3 := setTlb_cr3 ..

theorem At.fill (h : At B cpu a X τ σ) (hfill : Fill cpu σ σ') : At B cpu a X τ σ' := by
  refine ⟨hfill.hideTlb.trans h.hidden, h.dir, ?_⟩
  obtain ⟨n, pte, -, hwalk, rfl⟩ := hfill
  rw [setTlb_tlb]
  refine h.coherent.fill fun hn => ?_
  -- the processor walks `τ`, whose directory in `cr3` is that of the space
  have hcr3 : (τ.cpus cpu).cr3 = (σ.cpus cpu).cr3 := by rw [← h.hidden, hideTlb_cr3]
  rw [← walkPte_eq h.dir hn.1, hcr3, ← hwalk, ← h.hidden]
  rfl

theorem At.fills (h : At B cpu a X τ σ) (hfill : Relation.ReflTransGen (Fill cpu) σ σ') :
    At B cpu a X τ σ' := by
  induction hfill with
  | refl => exact h
  | tail _ hstep ih => exact ih.fill hstep

/-- A step of the kernel's code. -/
theorem At.step (h : At B cpu a X τ σ) (heff : Effect B cpu a X X' τ τ') :
    At B cpu a X' τ' (τ'.setTlb cpu (σ.cpus cpu).tlb) where
  hidden := by
    have htlb : (τ'.cpus cpu).tlb = [] := by rw [heff.tlb, ← h.hidden, hideTlb_tlb]
    rw [hideTlb_setTlb, hideTlb, setTlb_self htlb]
  dir := by rw [heff.dir, h.dir, heff.cr3]
  coherent := by
    rw [setTlb_tlb]
    refine h.coherent.grow (fun n hn => ⟨hn.1, fun hX => hn.2 (heff.sub hX)⟩) fun n w hn hw => ?_
    obtain ⟨u, hu, rfl⟩ := Option.map_eq_some_iff.mp hw
    rw [cacheable, pageSlot, heff.grow _ _ u hn.2 hu, Option.map_some]

/-- With the directory of a space in `cr3` and nothing in transit, the TLB is coherent. -/
theorem At.tlbCoherent (h : At B cpu a ∅ τ σ) : TlbCoherent cpu σ := by
  have hcr3 : (τ.cpus cpu).cr3 = (σ.cpus cpu).cr3 := by rw [← h.hidden, hideTlb_cr3]
  refine h.coherent.grow (fun n hn => ⟨hn, Set.notMem_empty _⟩) fun n w hn hw => ?_
  rw [← hw, ← walkPte_eq h.dir hn, hcr3, ← h.hidden]
  rfl

/-- What the code computes does not depend on the TLB. -/
theorem At.computes {α : Type} {x : Kernel α} {f : State → Except Panic (α × State)} {r : α}
    (h : At B cpu a X τ σ) (h' : At B cpu b X' τ' σ') (hx : Computes cpu x f) (hrun : x σ r σ') :
    f τ = .ok (r, τ') := by
  rw [← h.hidden, ← h'.hidden]
  exact hx.sound hrun

end At

/-! ### Effects -/

namespace Effect

variable {X : Set Slot}

/-- The slots of the space are as they were. -/
theorem of_slots (hcpus : τ'.cpus cpu = τ.cpus cpu) (hdir : dirFrame B τ' a = dirFrame B τ a)
    (h : ∀ i j, slots B τ' (.pte a i j) = slots B τ (.pte a i j)) : Effect B cpu a X X τ τ' :=
  ⟨by rw [hcpus], by rw [hcpus], hdir, subset_rfl, fun i j u _ hu => by rw [h, hu]⟩

theorem of_same (h : SameData τ τ') : Effect B cpu a X X τ τ' :=
  of_slots (by rw [h.cpus]) (dirFrame_congr h.envs a) fun _ _ => by rw [h.slots]

/-- One slot is written. Afterwards it is in transit. -/
theorem of_update {s : Slot} {v : Option (ℕ × BitVec 12)} (hcpus : τ'.cpus cpu = τ.cpus cpu)
    (henvs : τ'.envs = τ.envs) (h : slots B τ' = Function.update (slots B τ) s v) :
    Effect B cpu a X (insert s X) τ τ' where
  cr3 := by rw [hcpus]
  tlb := by rw [hcpus]
  dir := dirFrame_congr henvs a
  sub := Set.subset_insert s X
  grow i j u hX hu := by
    have hne : Slot.pte a i j ≠ s := fun hs => hX (by rw [hs]; exact Set.mem_insert s X)
    rw [h, Function.update_of_ne hne, hu]

/-- A slot of the space that had nothing is filled. -/
theorem of_fill {s : Slot} {v : Option (ℕ × BitVec 12)} (hcpus : τ'.cpus cpu = τ.cpus cpu)
    (henvs : τ'.envs = τ.envs) (h : slots B τ' = Function.update (slots B τ) s v)
    (hs : ∀ i j, .pte a i j = s → slots B τ s = none) : Effect B cpu a X X τ τ' where
  cr3 := by rw [hcpus]
  tlb := by rw [hcpus]
  dir := dirFrame_congr henvs a
  sub := subset_rfl
  grow i j u _ hu := by
    have hne : Slot.pte a i j ≠ s := by
      intro hc
      rw [hc, hs i j hc] at hu
      cases hu
    rw [h, Function.update_of_ne hne, hu]

end Effect

/-! ### Triples -/

open Interrupted (Triple compute)

/-- However the TLB fills up while `x` runs, it does not spoil the assertion. `R` says what
else is known of the outcome. -/
def Steady (B : Boot) (cpu : ℕ) (a : Space) (X X' : Set Slot) (τ : State) {α : Type}
    (x : Kernel α) (R : α → State → Prop) : Prop :=
  Triple (At B cpu a X τ) x fun r σ => ∃ τ', R r τ' ∧ At B cpu a X' τ' σ

/-- The kernel goes on from whatever state it is in. -/
theorem bind_at {α β : Type} {x : Kernel α} {k : α → Kernel β} {P : State → Prop} {X : Set Slot}
    {R : α → State → Prop} {Q : β → State → Prop}
    (hx : Triple P x fun r σ => ∃ τ, R r τ ∧ At B cpu a X τ σ)
    (hk : ∀ r τ, R r τ → Triple (At B cpu a X τ) (k r) Q) : Triple P (x >>= k) Q := by
  refine Triple.bind hx fun r => ?_
  rintro σ s σ' ⟨τ, hR, hat⟩ hrun
  exact hk r τ hR σ s σ' hat hrun

namespace Steady

variable {α β : Type} {X X' X'' : Set Slot} {x : Kernel α} {R : α → State → Prop}

theorem bind_triple {k : α → Kernel β} {Q : β → State → Prop} (hx : Steady B cpu a X X' τ x R)
    (hk : ∀ r τ₁, R r τ₁ → Triple (At B cpu a X' τ₁) (k r) Q) :
    Triple (At B cpu a X τ) (x >>= k) Q := bind_at hx hk

theorem bind {k : α → Kernel β} {R' : β → State → Prop} (hx : Steady B cpu a X X' τ x R)
    (hk : ∀ r τ₁, R r τ₁ → Steady B cpu a X' X'' τ₁ (k r) R') :
    Steady B cpu a X X'' τ (x >>= k) R' := hx.bind_triple hk

theorem weaken {R' : α → State → Prop} (hx : Steady B cpu a X X' τ x R)
    (h : ∀ r τ', R r τ' → R' r τ') : Steady B cpu a X X' τ x R' :=
  Triple.weaken hx fun r _ ⟨τ', hR, hat⟩ => ⟨τ', h r τ' hR, hat⟩

theorem forget (hx : Steady B cpu a X X' τ x R) : Steady B cpu a X X' τ x fun _ _ => True :=
  hx.weaken fun _ _ _ => trivial

theorem and_computes {f : State → Except Panic (α × State)} (hx : Steady B cpu a X X' τ x R)
    (hf : Computes cpu x f) :
    Steady B cpu a X X' τ x fun r τ' => f τ = .ok (r, τ') ∧ R r τ' := by
  intro σ r σ' hat hrun
  obtain ⟨τ', hR, hat'⟩ := hx σ r σ' hat hrun
  exact ⟨τ', ⟨hat.computes hat' hf hrun, hR⟩, hat'⟩

theorem computes {f : State → Except Panic (α × State)} (hx : Steady B cpu a X X' τ x R)
    (hf : Computes cpu x f) : Steady B cpu a X X' τ x fun r τ' => f τ = .ok (r, τ') :=
  (hx.and_computes hf).weaken fun _ _ h => h.1

theorem pure (r : α) :
    Steady B cpu a X X τ (Pure.pure r : Kernel α) fun r' τ' => r' = r ∧ τ' = τ := by
  rintro σ r' σ' hat ⟨rfl, rfl⟩
  exact ⟨τ, ⟨rfl, rfl⟩, hat⟩

theorem compute (y : Except Panic α) :
    Steady B cpu a X X τ (Interrupted.compute y) fun r τ' => y = .ok r ∧ τ' = τ := by
  rintro σ r σ' hat ⟨hy, rfl⟩
  exact ⟨τ, ⟨hy, rfl⟩, hat⟩

theorem instr {f : State → Except Panic (α × State)}
    (heff : ∀ r τ', f τ = .ok (r, τ') → Effect B cpu a X X' τ τ') :
    Steady B cpu a X X' τ (Jos.instr cpu f) fun r τ' => f τ = .ok (r, τ') := by
  rintro σ r σ' hat ⟨σ₁, hfill, hrun⟩
  have hat₁ := hat.fills hfill
  cases hf : f (σ₁.setTlb cpu []) with
  | error p =>
    simp only [hf] at hrun
    cases hrun
  | ok u =>
    simp only [hf] at hrun
    cases hrun
    rw [show σ₁.setTlb cpu [] = τ from hat₁.hidden] at hf
    exact ⟨u.2, hf, hat₁.step (heff u.1 u.2 hf)⟩

theorem read (f : State → α) :
    Steady B cpu a X X τ (Stepwise.read cpu f) fun r τ' => r = f τ ∧ τ' = τ := by
  refine (instr fun r τ' h => ?_).weaken fun r τ' h => ?_
  · obtain ⟨-, rfl⟩ := Prod.mk.inj (Except.ok.inj h)
    exact .of_same ⟨rfl, rfl, rfl, rfl, rfl⟩
  · obtain ⟨rfl, rfl⟩ := Prod.mk.inj (Except.ok.inj h)
    exact ⟨rfl, rfl⟩

theorem write {f : State → State} (heff : Effect B cpu a X X' τ (f τ)) :
    Steady B cpu a X X' τ (Stepwise.write cpu f) fun _ τ' => τ' = f τ := by
  refine (instr fun r τ' h => ?_).weaken fun r τ' h => ?_
  · obtain ⟨-, rfl⟩ := Prod.mk.inj (Except.ok.inj h)
    exact heff
  · exact (Prod.mk.inj (Except.ok.inj h)).2.symm

theorem ite {c : Prop} [Decidable c] {y : Kernel α} (hx : c → Steady B cpu a X X' τ x R)
    (hy : ¬c → Steady B cpu a X X' τ y R) : Steady B cpu a X X' τ (if c then x else y) R := by
  by_cases hc : c
  · rw [if_pos hc]
    exact hx hc
  · rw [if_neg hc]
    exact hy hc

/-- A loop with an invariant. -/
theorem forM {ι : Type} {y : ι → Kernel Unit} {l : List ι} {I : State → Prop}
    (hy : ∀ i ∈ l, ∀ τ, I τ → Steady B cpu a X X τ (y i) fun _ => I) (hI : I τ) :
    Steady B cpu a X X τ (l.forM y) fun _ => I := by
  intro σ u σ' hat hrun
  refine Triple.forM (I := fun σ => ∃ τ, I τ ∧ At B cpu a X τ σ) (fun i hi => ?_) σ u σ'
    ⟨τ, hI, hat⟩ hrun
  rintro σ₁ v σ₂ ⟨τ₁, hI₁, hat₁⟩ hstep
  exact hy i hi τ₁ hI₁ σ₁ v σ₂ hat₁ hstep

end Steady

/-- `tlb_invalidate(pgdir, va)` does not skip the invalidation. -/
def Flushes (cpu : ℕ) (pgdir : Word) (τ : State) : Prop :=
  ∀ c, τ.curenv cpu = some c → (τ.envs c).envPgdir = pgdir

theorem Flushes.congr {pgdir : Word} (h : Flushes cpu pgdir τ) (henvs : τ'.envs = τ.envs)
    (hcur : τ'.curenv cpu = τ.curenv cpu) : Flushes cpu pgdir τ' := by
  intro c hc
  rw [henvs]
  exact h c (hcur.symm.trans hc)

theorem tlbInvalidate_cases (cpu : ℕ) (pgdir va : Word) (τ : State) :
    tlbInvalidate cpu pgdir va τ = invlpg cpu va τ ∨
      tlbInvalidate cpu pgdir va τ = τ ∧ ¬Flushes cpu pgdir τ := by
  unfold tlbInvalidate
  cases hc : τ.curenv cpu with
  | none => exact Or.inl rfl
  | some c =>
    by_cases hp : (τ.envs c).envPgdir = pgdir
    · exact Or.inl (if_pos hp)
    · exact Or.inr ⟨if_neg hp, fun hfl => hp (hfl c hc)⟩

theorem tlbInvalidate_cr3 (cpu : ℕ) (pgdir va : Word) (τ : State) :
    ((tlbInvalidate cpu pgdir va τ).cpus cpu).cr3 = (τ.cpus cpu).cr3 := by
  obtain heq | ⟨heq, -⟩ := tlbInvalidate_cases cpu pgdir va τ
  · rw [heq, invlpg, setCpu_cpus]
  · rw [heq]

namespace Stepwise

variable {X : Set Slot}

theorem steady_load (pte : PtePtr) :
    Steady B cpu a X X τ (load cpu pte) fun w τ' => w = τ.load pte ∧ τ' = τ := .read _

theorem steady_incRef (pp : ℕ) :
    Steady B cpu a X X τ (incRef cpu pp) fun _ τ' => τ' = τ.incRef pp :=
  .write (.of_same ⟨rfl, rfl, rfl, rfl, rfl⟩)

theorem steady_pageDecref (pp : ℕ) :
    Steady B cpu a X X τ (pageDecref cpu pp) fun _ τ' => Jos.pageDecref pp τ = .ok τ' := by
  refine (Steady.instr fun r τ' h => ?_).weaken fun r τ' h => done_eq_ok.mp h
  exact .of_same (pageDecref_same (done_eq_ok.mp h))

theorem steady_pageFree (pp : ℕ) :
    Steady B cpu a X X τ (pageFree cpu pp) fun _ τ' => Jos.pageFree pp τ = .ok τ' := by
  refine (Steady.instr fun r τ' h => ?_).weaken fun r τ' h => done_eq_ok.mp h
  exact .of_same (pageFree_same (done_eq_ok.mp h))

/-- Writing a word of a page that no slot refers to. -/
theorem steady_store_unref {kva : Word} (hm : B.Managed (frameAt kva))
    (hunref : ∀ s, slotRef B τ s ≠ some (frameAt kva)) (i : Fin 1024) (w : Word) :
    Steady B cpu a X X τ (store cpu (kva, i) w) fun _ τ' =>
      ∀ s, slotRef B τ' s ≠ some (frameAt kva) := by
  obtain ⟨hslots, hkeeps⟩ := setFrame_unref hunref hm (Function.update (τ.mem (frameAt kva)) i w)
  refine (Steady.write ?_).weaken ?_
  · exact .of_slots rfl (hkeeps.dirFrame a) fun i' j => congrFun hslots _
  · rintro _ _ rfl s
    rw [show slotRef B (τ.store (kva, i) w) = slotRef B τ from slotRef_eq_of_slots hslots]
    exact hunref s

/-- Writing the whole page. -/
theorem steady_writePage {kva : Word} (hm : B.Managed (frameAt kva))
    (hunref : ∀ s, slotRef B τ s ≠ some (frameAt kva)) (c : Fin 1024 → Word) :
    Steady B cpu a X X τ (writePage cpu kva c) fun _ τ' =>
      ∀ s, slotRef B τ' s ≠ some (frameAt kva) :=
  .forM (fun i _ _ h => steady_store_unref hm h i (c i)) hunref

theorem steady_unlink : Steady B cpu a X X τ (instr cpu fun σ => .ok (unlink σ)) fun r τ' =>
    unlink τ = (r, τ') := by
  refine (Steady.instr fun r τ' h => ?_).weaken fun r τ' h => Except.ok.inj h
  have hsame := unlink_same τ
  rw [Except.ok.inj h] at hsame
  exact .of_same hsame

/-- What `page_alloc` takes off the list is its first page. -/
theorem unlink_some (h : PageInv B τ held free) {page : ℕ} (hu : unlink τ = (some page, τ')) :
    ∃ rest, free = page :: rest := by
  cases free with
  | nil =>
    rw [unlink, h.chain.head_none_iff.mpr rfl] at hu
    cases hu
  | cons p rest =>
    rw [unlink, h.chain.head_eq] at hu
    obtain ⟨hp, -⟩ := Prod.mk.inj hu
    exact ⟨rest, by rw [Option.some.inj hp]⟩

theorem steady_pageAlloc (h : PageInv B τ held free) (flags : Word) :
    Steady B cpu a X X τ (pageAlloc B cpu flags) fun r τ' =>
      Jos.pageAlloc B flags τ = .ok (r, τ') := by
  refine Steady.computes (R := fun _ _ => True) ?_ (computes_pageAlloc flags)
  refine steady_unlink.bind fun page τ₁ hu => ?_
  cases page with
  | none => exact (Steady.pure none).forget
  | some page =>
    refine .ite (fun hz => ?_) fun _ => (Steady.pure _).forget
    -- the page has come off the list, so nothing refers to it
    obtain ⟨rest, rfl⟩ := unlink_some h hu
    have hm : B.Managed page := h.free_managed page List.mem_cons_self
    have hsame := unlink_same τ
    rw [hu] at hsame
    refine (Steady.compute _).bind fun kva τ₂ hkva => ?_
    obtain ⟨hkva, rfl⟩ := hkva
    rw [page2kva_of_lt hm.1] at hkva
    obtain rfl := Except.ok.inj hkva
    have hframe := hm.frameAt_kva
    refine (steady_writePage (by rw [hframe]; exact hm) ?_ _).bind fun _ τ₃ _ =>
      (Steady.pure _).forget
    intro s
    rw [hframe, slotRef_eq_of_slots hsame.slots]
    exact h.slot_ne_of_mem List.mem_cons_self s

theorem steady_pageLookup (pgdir va : Word) :
    Steady B cpu a X X τ (pageLookup B cpu pgdir va) fun r τ' =>
      Jos.pageLookup B pgdir va τ = .ok (r, τ') := by
  refine Steady.instr fun r τ' h => ?_
  rw [pageLookup_state h]
  exact .of_same ⟨rfl, rfl, rfl, rfl, rfl⟩

/-- `pgdir_walk` fills a slot of a directory at most, and those are not cached. -/
theorem steady_pgdirWalk (h : PageInv B τ held free) {pgdir va : Word}
    (hd : dirFrame B τ b = some (frameAt pgdir)) (htr : Tracked b (pdx va)) (create : Bool) :
    Steady B cpu a X X τ (pgdirWalk B cpu pgdir va create) fun r τ' =>
      Jos.pgdirWalk B pgdir va create τ = .ok (r, τ') := by
  refine Steady.computes (R := fun _ _ => True) ?_ (computes_pgdirWalk pgdir va create)
  have hwalk : ∀ (pde : Word) (τ₁ : State),
      Steady B cpu a X X τ₁ (walkTable B pde va) fun _ _ => True := fun pde τ₁ =>
    (Steady.compute _).bind fun _ _ _ => (Steady.pure _).forget
  refine (steady_load _).bind fun pde τ₁ hload => ?_
  obtain ⟨rfl, rfl⟩ := hload
  refine .ite (fun _ => hwalk _ _) fun hpres => .ite (fun _ => ?_) fun _ =>
    (Steady.pure _).forget
  have ht : entryOf (τ₁.mem (frameAt pgdir) (pdx va)) = none :=
    entryOf_eq_none.mpr (Bool.eq_false_iff.mpr hpres)
  refine (steady_pageAlloc h allocZero).bind fun page τ₂ halloc => ?_
  cases page with
  | none => exact (Steady.pure none).forget
  | some page =>
    obtain ⟨rest, rfl, hinv, hslots, hkeeps, hzero⟩ := pageAlloc_some h halloc
    have hm : B.Managed page := h.free_managed page List.mem_cons_self
    have hne : page ≠ frameAt pgdir := h.dirFrame_ne_of_mem hd List.mem_cons_self
    have hfree : page ∉ rest := (List.nodup_cons.mp h.chain.nodup).1
    obtain ⟨hinv₂, hsame₂⟩ := incRef_spec hinv hm hfree
    refine (steady_incRef page).bind fun _ τ₃ h₃ => ?_
    subst h₃
    refine (Steady.write ?_).bind fun _ τ₄ _ => (steady_load _).bind fun pde τ₅ _ => hwalk _ _
    -- there was no table, and the new one is empty, so that no page is mapped
    have hslots₃ : slots B ((τ₂.incRef page).setWord (frameAt pgdir) (pdx va)
        (page2pa page ||| pteP ||| pteU ||| pteW)) =
        Function.update (slots B (τ₂.incRef page)) (.pde b (pdx va)) (some (page, tablePerm)) := by
      refine slots_newTable hinv₂.separated ?_ htr ?_ hm.lt_pow hne ?_
      · rw [hsame₂.keeps.dirFrame, hkeeps.dirFrame, hd]
      · intro j
        rw [hsame₂.slots, hslots]
        exact slots_pte_of_none hd ht
      · rw [hsame₂.mem, hzero (by decide)]
    exact .of_fill rfl rfl hslots₃ fun i j hc => by cases hc

/-! ### `page_remove` -/

theorem steady_tlbInvalidate {pgdir va : Word} (hfl : a = b → Flushes cpu pgdir τ) :
    Steady B cpu a (insert (.pte b (pdx va) (ptx va)) X) X τ (tlbInvalidate cpu pgdir va)
      fun _ τ' => τ' = Jos.tlbInvalidate cpu pgdir va τ := by
  rintro σ u σ' hat ⟨σ₁, hfill, hrun⟩
  have hat := hat.fills hfill
  obtain rfl := Except.ok.inj (done_eq_ok.mp hrun)
  refine ⟨_, rfl, ?_, ?_, ?_⟩
  · rw [← hideTlb_tlbInvalidate, hat.hidden]
  · rw [tlbInvalidate_cr3, (tlbInvalidate_keeps cpu pgdir va τ).2.1.dirFrame, hat.dir]
  · have hview : cacheable B (Jos.tlbInvalidate cpu pgdir va τ) a = cacheable B τ a := by
      funext n
      rw [cacheable, cacheable, (tlbInvalidate_keeps cpu pgdir va τ).1]
    rw [hview]
    obtain heq | ⟨heq, hskip⟩ := tlbInvalidate_cases cpu pgdir va σ₁
    · -- what is still cached is for other pages
      rw [heq, invlpg, setCpu_cpus]
      refine hat.coherent.drop _ fun t ht hn => ⟨hn.1, ?_⟩
      rintro (hs | hX)
      · exact of_decide_eq_true ht ((pageSlot_eq_iff hn.1).mp hs).2
      · exact hn.2 hX
    · -- the invalidation is skipped, so the entry is one of another space
      rw [heq]
      refine hat.coherent.grow (fun n hn => ⟨hn.1, ?_⟩) fun n w _ hw => hw
      rintro (hs | hX)
      · refine hskip ?_
        have hflush := hfl ((pageSlot_eq_iff hn.1).mp hs).1
        rw [← hat.hidden] at hflush
        intro c hc
        exact hflush c (by rw [hideTlb, setTlb_curenv, hc])
      · exact hn.2 hX

theorem steady_pageRemove (h : PageInv B τ held free) {pgdir va : Word}
    (hd : dirFrame B τ b = some (frameAt pgdir)) (hi : (pdx va).val < 955)
    (hfl : a = b → Flushes cpu pgdir τ) :
    Steady B cpu a X X τ (pageRemove B cpu pgdir va) fun _ τ' =>
      Jos.pageRemove B cpu pgdir va τ = .ok τ' := by
  refine (Steady.computes (R := fun _ _ => True) ?_ (computes_pageRemove pgdir va)).weaken
    fun _ _ hr => done_eq_ok.mp hr
  refine (steady_pageLookup pgdir va).bind fun found τ₁ hlook => ?_
  obtain rfl := pageLookup_state hlook
  obtain ⟨hnone, hsome⟩ := pageLookup_spec h hd hi
  cases hs : slots B τ₁ (.pte b (pdx va) (ptx va)) with
  | none =>
    obtain ⟨rfl, -⟩ := ok_unique_pair (hnone hs) hlook
    exact (Steady.pure ()).forget
  | some u =>
    obtain ⟨p, π⟩ := u
    obtain ⟨kva, t, ρ, hlook', hkva, ht, -⟩ := hsome p π hs
    obtain ⟨rfl, -⟩ := ok_unique_pair hlook' hlook
    refine (steady_load _).bind fun w τ₂ hload => ?_
    obtain ⟨rfl, rfl⟩ := hload
    refine .ite (fun _ => ?_) fun _ => (Steady.pure ()).forget
    -- from the store to the invalidation the slot of `va` is in transit
    have hslots : slots B (τ₂.store (kva, ptx va) 0#32) =
        Function.update (slots B τ₂) (.pte b (pdx va) (ptx va)) none := by
      rw [State.store, hkva, slots_setWord_pte h.separated hd hi ht, entryOf_zero]
    refine (Steady.write (.of_update rfl rfl hslots)).bind fun _ τ₃ h₃ => ?_
    subst h₃
    refine (steady_pageDecref p).bind fun _ τ₄ hdec => ?_
    have hsame := pageDecref_same hdec
    refine (steady_tlbInvalidate fun hab => ?_).forget
    exact (hfl hab).congr hsame.envs (congrArg CpuInfo.cpuEnv (congrFun hsame.cpus cpu))

/-! ### `page_insert` -/

theorem steady_pageInsertAt (h : PageInv B τ held free) {pp : ℕ} {pgdir va perm kva : Word}
    {ρ : BitVec 12} (hd : dirFrame B τ b = some (frameAt pgdir)) (hi : (pdx va).val < 955)
    (ht : entryOf (τ.mem (frameAt pgdir) (pdx va)) = some (frameAt kva, ρ))
    (hm : B.Managed pp) (hpp : pp ∉ free) (hbound : ∀ p, refs B τ p + held p ≤ 65535)
    (hfl : a = b → Flushes cpu pgdir τ) :
    Steady B cpu a X X τ (pageInsertAt B cpu pgdir pp va perm (kva, ptx va)) fun r τ' =>
      Jos.pageInsertAt B cpu pgdir pp va perm (kva, ptx va) τ = .ok (r, τ') := by
  refine Steady.computes (R := fun _ _ => True) ?_ (computes_pageInsertAt pgdir pp va perm _)
  obtain ⟨hinv₁, hsame₁⟩ := incRef_spec h hm hpp
  refine (steady_incRef pp).bind fun _ τ₁ h₁ => ?_
  subst h₁
  set τ₁ := τ.incRef pp
  have hd₁ : dirFrame B τ₁ b = some (frameAt pgdir) := by rw [hsame₁.keeps.dirFrame, hd]
  have ht₁ : entryOf (τ₁.mem (frameAt pgdir) (pdx va)) = some (frameAt kva, ρ) := by
    rw [hsame₁.mem, ht]
  refine (steady_load _).bind fun w τ₂ hload => ?_
  obtain ⟨rfl, rfl⟩ := hload
  -- an old mapping is removed, so that the slot is empty when the new one is stored
  have hclear : Steady B cpu a X X τ₁ (when (present (τ₁.load (kva, ptx va)))
      (pageRemove B cpu pgdir va)) fun _ τ₃ => Separated B τ₃ ∧
        slots B τ₃ (.pte b (pdx va) (ptx va)) = none ∧ dirFrame B τ₃ b = some (frameAt pgdir) ∧
        entryOf (τ₃.mem (frameAt pgdir) (pdx va)) = some (frameAt kva, ρ) := by
    refine .ite (fun _ => ?_) fun hpres => (Steady.pure ()).weaken ?_
    · have hb₁ : ∀ p, refs B τ₁ p + (held + Pi.single pp 1 : ℕ → ℕ) p ≤ 65536 :=
        hsame₁.refs_incRef_le hbound pp
      obtain ⟨τ₃', hrem', hslots, hinv, hkeeps⟩ := pageRemove_spec hinv₁ hd₁ hi hb₁ cpu
      refine (steady_pageRemove hinv₁ hd₁ hi fun hab => ?_).weaken fun _ τ₃ hrem => ?_
      · exact (hfl hab).congr hsame₁.envs (congrArg CpuInfo.cpuEnv (congrFun hsame₁.cpus cpu))
      · obtain rfl := ok_unique hrem' hrem
        have hd₃ : dirFrame B τ₃' b = some (frameAt pgdir) := by rw [hkeeps.dirFrame, hd₁]
        have htr := tracked_of_lt hi b
        refine ⟨hinv.separated, by rw [hslots, Function.update_self], hd₃, ?_⟩
        rw [← slots_pde hd₃ htr, hslots, Function.update_of_ne (by simp), slots_pde hd₁ htr, ht₁]
    · rintro _ _ ⟨-, rfl⟩
      refine ⟨hinv₁.separated, ?_, hd₁, ht₁⟩
      rw [slots_pte hd₁ hi ht₁]
      exact entryOf_eq_none.mpr (Bool.eq_false_iff.mpr hpres)
  refine hclear.bind fun _ τ₃ h₃ => ?_
  obtain ⟨hsep₃, hnone₃, hd₃, ht₃⟩ := h₃
  refine (Steady.write (.of_fill rfl rfl (slots_setWord_pte hsep₃ hd₃ hi ht₃ _) ?_)).bind
    fun _ _ _ => (Steady.pure _).forget
  exact fun _ _ _ => hnone₃

theorem steady_pageInsert (h : PageInv B τ held free) {pp : ℕ} {pgdir va perm : Word}
    (hd : dirFrame B τ b = some (frameAt pgdir)) (hi : (pdx va).val < 955)
    (hm : B.Managed pp) (hpp : pp ∉ free) (hbound : ∀ p, refs B τ p + held p ≤ 65535)
    (hfl : a = b → Flushes cpu pgdir τ) :
    Steady B cpu a X X τ (pageInsert B cpu pgdir pp va perm) fun r τ' =>
      Jos.pageInsert B cpu pgdir pp va perm τ = .ok (r, τ') := by
  have htr := tracked_of_lt hi b
  refine Steady.computes (R := fun _ _ => True) ?_ (computes_pageInsert pgdir pp va perm)
  refine (steady_pgdirWalk h hd htr true).bind fun pte τ₁ hwalk => ?_
  cases ht : entryOf (τ.mem (frameAt pgdir) (pdx va)) with
  | some t =>
    obtain ⟨t, ρ⟩ := t
    obtain ⟨kva, hwalk', rfl⟩ := pgdirWalk_present h hd htr ht true
    obtain ⟨rfl, rfl⟩ := ok_unique_pair hwalk' hwalk
    exact (steady_pageInsertAt h hd hi ht hm hpp hbound hfl).forget
  | none =>
    cases free with
    | nil =>
      obtain ⟨rfl, rfl⟩ := ok_unique_pair (pgdirWalk_full h ht) hwalk
      exact (Steady.pure _).forget
    | cons t free =>
      -- a new table counts one reference, so the bound still holds when `pp` is counted
      obtain ⟨τ₁', kva, hwalk', rfl, hinv, hslots, henvs, -, hcur, ht₁, -⟩ :=
        pgdirWalk_alloc h hd htr ht
      obtain ⟨rfl, rfl⟩ := ok_unique_pair hwalk' hwalk
      have hnone : slotRef B τ (.pde b (pdx va)) = none := by
        rw [slotRef, slots_pde hd htr, ht]
        rfl
      refine (steady_pageInsertAt hinv (by rw [dirFrame_congr henvs, hd]) hi ht₁ hm
        (fun hc => hpp (List.mem_cons_of_mem _ hc)) (h.refs_fill_le hnone hslots hbound)
        fun hab => ?_).forget
      exact (hfl hab).congr henvs (hcur cpu)

end Stepwise

end Jos
