import Jos.Memory.LoadActions
import Jos.Memory.TlbEnv

/-!
# The TLB while a program is loaded

`load_icode` reads and writes through addresses that the page tables map, so it is the one
operation whose result depends on the TLB: a byte goes where the cached entry says. As long as the
TLB is right about the pages below `UTOP`, that is where the page tables say. In turn the bytes go
to pages that are mapped there, and such a page is no table, so they do not make the TLB wrong. Both
directions are needed at every byte (`steady_storeByte`).

What is read does not matter for that: whatever the headers say, the TLB stays right as long as no
action of `load_icode` is at or above `UTOP` (`loadIcode_at`).
-/

namespace Jos

variable {B : Boot} {σ σ' τ τ' : State} {cpu : ℕ} {a b : Space} {free : List ℕ}
  {efree : List (Fin nenv)} {e : Fin nenv} {X : Set Slot}

open Interrupted (Triple)

/-- What holds while a program is loaded into `e`. -/
structure Loading (B : Boot) (cpu : ℕ) (e : Fin nenv) (τ : State) : Prop where
  table : ∃ free efree, TableInv B τ free efree
  live : Live τ e
  idle : τ.curenv cpu = none

/-- A write to a page that is no table. -/
theorem TableInv.of_slots (h : TableInv B τ free efree) (hslots : slots B τ' = slots B τ)
    (hk : Keeps B τ τ') (hpages : τ'.pages = τ.pages) (hfl : τ'.pageFreeList = τ.pageFreeList) :
    TableInv B τ' free efree where
  toMemInv := h.toMemInv.of_keeps (h.page.congr hpages hfl hslots) hk
    (fun p => by rw [refs_eq_of_slots hslots]; exact h.bound p) fun i => by rw [hslots]
  clean := by
    rw [hk.envs]
    exact h.clean

theorem Loading.of_keeps (h : Loading B cpu e τ) (hk : Keeps B τ τ')
    (ht : ∃ free efree, TableInv B τ' free efree) : Loading B cpu e τ' where
  table := ht
  live := by
    rw [Live, hk.envs]
    exact h.live
  idle := by rw [hk.curenv, h.idle]

theorem Loading.of_sameSpaces (h : Loading B cpu e τ) (hs : SameSpaces τ τ')
    (hcur : τ'.curenv cpu = τ.curenv cpu) : Loading B cpu e τ' where
  table := by
    obtain ⟨free, efree, ht⟩ := h.table
    exact ⟨free, efree, ht.of_sameSpaces hs⟩
  live := hs.live_iff.mpr h.live
  idle := hcur.trans h.idle

theorem Loading.flushes (h : Loading B cpu e τ) (pgdir : Word) : Flushes cpu pgdir τ := by
  intro c hc
  rw [h.idle] at hc
  cases hc

/-- The entry that is read back from a slot. -/
theorem entryOf_pteWord {i j : Fin 1024} {u : ℕ × BitVec 12}
    (h : slots B τ (.pte a i j) = some u) : entryOf (pteWord u) = some u := by
  simp only [slots] at h
  split at h
  · obtain ⟨d, -, h⟩ := Option.bind_eq_some_iff.mp h
    obtain ⟨t, -, h⟩ := Option.bind_eq_some_iff.mp h
    rw [pteWord_entryOf h, h]
  · cases h

/-! ### Fresh pages -/

/-- A page that is in use, but not mapped anywhere. -/
structure Fresh (B : Boot) (τ : State) (free : List ℕ) (p : ℕ) : Prop where
  managed : B.Managed p
  notMem : p ∉ free
  unref : refs B τ p = 0

/-- What `page_alloc` returns is fresh. -/
theorem pageAlloc_fresh {p : ℕ} (h : TableInv B τ free efree)
    (halloc : pageAlloc B 0#32 τ = .ok (some p, τ')) :
    ∃ free', TableInv B τ' free' efree ∧ Keeps B τ τ' ∧ Fresh B τ' free' p := by
  obtain ⟨rest, rfl, hinv, hslots, hkeeps, -⟩ := pageAlloc_some h.page halloc
  have h0 := h.page.refs_of_mem (p := p) List.mem_cons_self
  refine ⟨rest, ⟨h.toMemInv.of_keeps hinv hkeeps ?_ fun i => by rw [hslots], ?_⟩, hkeeps,
    h.page.free_managed p List.mem_cons_self, (List.nodup_cons.mp h.page.chain.nodup).1, ?_⟩
  · intro q
    rw [refs_eq_of_slots hslots]
    exact h.bound q
  · rw [hkeeps.envs]
    exact h.clean
  · rw [refs_eq_of_slots hslots]
    exact h0

/-- Mapping a fresh page gives it its first reference, so no counter overflows. -/
theorem Fresh.insert_bound {p : ℕ} {va perm : Word} {r : ℤ} (h : MemInv B τ free efree)
    (hp : Fresh B τ free p) (he : Live τ e) (hva : va < utop) (hperm : perm.toNat < 4096)
    (hrun : pageInsert B cpu (τ.envs e).envPgdir p va perm τ = .ok (r, τ')) (q : ℕ) :
    refs B τ' q ≤ 65535 := by
  have hd := h.env.dirFrame_live (B := B) he
  have hi := (lt_utop_iff va).mp hva
  have hb := h.bound q
  have hone : refs B τ q + (if p = q then 1 else 0) ≤ 65535 := by
    split
    · next hpq =>
      have h0 := hp.unref
      rw [hpq] at h0
      omega
    · omega
  cases ht : entryOf (τ.mem (frameAt (τ.envs e).envPgdir) (pdx va)) with
  | some t =>
    obtain ⟨τ₁, hrun', hslots, -⟩ :=
      pageInsert_present h.page hd hi ht hp.managed hp.notMem hperm h.bound_held cpu
    obtain ⟨-, rfl⟩ := ok_unique_pair hrun' hrun
    rw [refs, slotRef_update hslots]
    exact (refCount_update_le _ _ p q).trans hone
  | none =>
    cases free with
    | nil =>
      rw [pageInsert_full h.page ht] at hrun
      obtain ⟨-, rfl⟩ := Prod.mk.inj (Except.ok.inj hrun)
      exact hb
    | cons t free =>
      obtain ⟨τ₁, hrun', hslots, -⟩ :=
        pageInsert_alloc h.page hd hi ht hp.managed hp.notMem hperm h.bound_held cpu
      obtain ⟨-, rfl⟩ := ok_unique_pair hrun' hrun
      -- the new page table is another page, and had no reference either
      have href : slotRef B τ₁ = Function.update (Function.update (slotRef B τ)
          (.pde (some e) (pdx va)) (some t)) (.pte (some e) (pdx va) (ptx va)) (some p) := by
        change Option.map Prod.fst ∘ slots B τ₁ = _
        rw [hslots, Function.comp_update, Function.comp_update]
        rfl
      have hrefs :
          refs B τ₁ q ≤ refs B τ q + (if t = q then 1 else 0) + if p = q then 1 else 0 := by
        rw [refs, href]
        exact (refCount_update_le _ _ p q).trans
          (Nat.add_le_add_right (refCount_update_le _ _ t q) _)
      have htp : t ≠ p := fun hc => hp.notMem (by rw [hc]; exact List.mem_cons_self)
      split at hrefs
      · next htq =>
        have h0 := h.page.refs_of_mem (p := t) List.mem_cons_self
        rw [htq] at h0
        rw [if_neg fun hpq => htp (htq.trans hpq.symm)] at hrefs
        omega
      · rw [add_zero] at hrefs
        exact hrefs.trans hone

/-- Mapping a fresh page below `UTOP`. -/
theorem Fresh.insert {p : ℕ} {va perm : Word} {r : ℤ} (h : TableInv B τ free efree)
    (hp : Fresh B τ free p) (he : Live τ e) (hva : va < utop) (hperm : perm.toNat < 4096)
    (hrun : pageInsert B cpu (τ.envs e).envPgdir p va perm τ = .ok (r, τ')) :
    ∃ free', TableInv B τ' free' efree ∧ Keeps B τ τ' := by
  have hal : Allocated B τ p := ⟨hp.managed, fun hc =>
    hp.notMem ((h.page.onFreeList_iff p).mp hc)⟩
  have htab : ¬IsTablePage B τ p := fun ⟨s, _, hs⟩ => refCount_eq_zero.mp hp.unref s hs
  obtain ⟨r', τ₁, hrun', hinv⟩ := h.toMemInv.pageInsert cpu he hva hperm hal htab
  obtain ⟨-, rfl⟩ := ok_unique_pair hrun' hrun
  obtain ⟨free', h', hlocal⟩ := hinv (hp.insert_bound h.toMemInv he hva hperm hrun)
  have hkeeps := hlocal.keeps (fun hc => by cases hc)
  refine ⟨free', ⟨h', ?_⟩, hkeeps⟩
  rw [hkeeps.envs]
  exact h.clean

namespace Stepwise

/-! ### Writing through user addresses -/

theorem steady_loadByte (V : Variables) (va : Word) :
    Steady B cpu a X X τ (loadByte cpu V va) fun _ τ' => τ' = τ := by
  rintro σ b σ' hat ⟨f, w, hfill, -, -⟩
  exact ⟨τ, rfl, hat.fills hfill⟩

theorem steady_loadValue (V : Variables) (n : ℕ) (va : Word) :
    Steady B cpu a X X τ (loadValue cpu V n va) fun _ τ' => τ' = τ := by
  induction n generalizing va with
  | zero => exact (Steady.pure 0).weaken fun _ _ h => h.2
  | succ n ih =>
    refine (steady_loadByte V va).bind ?_
    rintro b _ rfl
    refine (ih (va + 1#32)).bind ?_
    rintro v _ rfl
    exact (Steady.pure _).weaken fun _ _ h => h.2

theorem steady_loadWord (V : Variables) (va : Word) :
    Steady B cpu a X X τ (loadWord cpu V va) fun _ τ' => τ' = τ := by
  refine (steady_loadValue V 4 va).bind ?_
  rintro v _ rfl
  exact (Steady.pure _).weaken fun _ _ h => h.2

/-- What an access below `UTOP` reaches is what the slot of the page refers to. -/
theorem Reaches.slot {σ : State} {va : Word} {f : ℕ} {w : Bool} (h : Reaches cpu va σ f w)
    (hat : At B cpu a ∅ τ σ) (hva : va < utop) :
    slotRef B τ (pageSlot a (pgnum va)) = some f := by
  have hn : UserPage (pgnum va) := userPage_iff.mpr (pgnum_lt hva)
  have hslot : pageSlot a (pgnum va) = .pte a (pdx va) (ptx va) :=
    (pageSlot_eq_iff hn).mpr ⟨rfl, rfl⟩
  obtain ⟨pte, hmem, rfl, -⟩ | hwalk := h
  · -- a cached entry is the one of the slot
    obtain ⟨u, hu, hw⟩ :=
      Option.map_eq_some_iff.mp (hat.coherent _ hmem ⟨hn, Set.notMem_empty _⟩)
    have hframe : pgnum (pteAddr (pteWord u)) = u.1 :=
      (entryOf_eq_some.mp (show _ = some (u.1, u.2) from entryOf_pteWord hu)).2.1
    change pteWord u = pte at hw
    rw [slotRef, hu, ← hw, hframe]
    rfl
  · obtain ⟨π₁, π₂, hwalk, -⟩ := (kernelAccess_eq_some (lt_kernbase_of_lt_utop hva)).mp hwalk
    obtain ⟨t, ht, hp⟩ := x86Walk_eq_some.mp hwalk
    have hd : dirFrame B τ a = some (pgnum (σ.cpus cpu).cr3) := by
      rw [hat.dir, ← hat.hidden, hideTlb_cr3]
    obtain rfl := hat.hidden
    rw [slotRef, hslot, slots_pte hd ((lt_utop_iff va).mp hva) ht]
    exact congrArg (Option.map Prod.fst) hp

theorem steady_storeByte (h : Loading B cpu e τ) {va : Word} (hva : va < utop) (v : Byte) :
    Steady B cpu a ∅ ∅ τ (storeByte cpu va v) fun _ => Loading B cpu e := by
  rintro σ u σ' hat ⟨σ₁, f, hfill, hreach, rfl⟩
  have hat := hat.fills hfill
  have hmapped := hreach.slot hat hva
  obtain ⟨free, efree, ht⟩ := h.table
  -- the byte goes to a mapped page, which is no table
  set τ' : State := τ.setByte f (pgoff va) v with hτ'
  obtain ⟨hslots, hkeeps⟩ : slots B τ' = slots B τ ∧ Keeps B τ τ' :=
    ht.page.separated.setFrame_mapped hmapped _
  refine ⟨τ', h.of_keeps hkeeps ⟨free, efree, ht.of_slots hslots hkeeps rfl rfl⟩, ?_, ?_, ?_⟩
  · rw [hτ', ← hat.hidden]
    rfl
  · rw [hkeeps.dirFrame, hat.dir]
    rfl
  · refine hat.coherent.grow (fun n hn => hn) fun n w _ hw => ?_
    rw [← hw, cacheable, cacheable, hslots]

theorem steady_storeBytes (bs : List Byte) {va : Word} (h : Loading B cpu e τ)
    (hva : bs ≠ [] → va.toNat + bs.length ≤ utop.toNat) :
    Steady B cpu a ∅ ∅ τ (storeBytes cpu bs va) fun _ => Loading B cpu e := by
  induction bs generalizing va τ with
  | nil =>
    refine (Steady.pure ()).weaken ?_
    rintro _ _ ⟨-, rfl⟩
    exact h
  | cons v bs ih =>
    have hend := hva (List.cons_ne_nil v bs)
    rw [List.length_cons] at hend
    have hlt : va < utop := by
      rw [BitVec.lt_def]
      omega
    refine (steady_storeByte h hlt v).bind fun _ τ₁ h₁ => ?_
    have hnext := toNat_succ_of_lt_utop hlt
    exact ih h₁ fun _ => by rw [hnext]; omega

/-- Copying from wherever the source is. -/
theorem steady_memmoveUp (V : Variables) (n : ℕ) {dst src : Word} (h : Loading B cpu e τ)
    (hdst : n ≠ 0 → dst.toNat + n ≤ utop.toNat) :
    Steady B cpu a ∅ ∅ τ (memmoveUp cpu V n dst src) fun _ => Loading B cpu e := by
  induction n generalizing dst src τ with
  | zero =>
    refine (Steady.pure ()).weaken ?_
    rintro _ _ ⟨-, rfl⟩
    exact h
  | succ n ih =>
    have hend := hdst (Nat.succ_ne_zero n)
    have hlt : dst < utop := by
      rw [BitVec.lt_def]
      omega
    refine (steady_loadByte V src).bind ?_
    rintro b _ rfl
    refine (steady_storeByte h hlt b).bind fun _ τ₁ h₁ => ?_
    have hnext := toNat_succ_of_lt_utop hlt
    exact ih h₁ fun _ => by rw [hnext]; omega

theorem steady_memmoveDown (V : Variables) (n : ℕ) {dst src : Word} (h : Loading B cpu e τ)
    (hdst : n ≠ 0 → dst.toNat + n ≤ utop.toNat) :
    Steady B cpu a ∅ ∅ τ (memmoveDown cpu V n dst src) fun _ => Loading B cpu e := by
  induction n generalizing τ with
  | zero =>
    refine (Steady.pure ()).weaken ?_
    rintro _ _ ⟨-, rfl⟩
    exact h
  | succ n ih =>
    have hend := hdst (Nat.succ_ne_zero n)
    have htop : utop.toNat < 2 ^ 32 := utop.isLt
    have hlt : dst + BitVec.ofNat 32 n < utop := by
      rw [BitVec.lt_def, BitVec.toNat_add, BitVec.toNat_ofNat]
      omega
    refine (steady_loadByte V _).bind ?_
    rintro b _ rfl
    refine (steady_storeByte h hlt b).bind fun _ τ₁ h₁ => ?_
    exact ih h₁ fun _ => by omega

theorem steady_memmove (V : Variables) {dst src n : Word} (h : Loading B cpu e τ)
    (hbelow : (LoadAction.copy dst src n).Below) :
    Steady B cpu a ∅ ∅ τ (memmove cpu V dst src n) fun _ => Loading B cpu e := by
  have hdst : n.toNat ≠ 0 → dst.toNat + n.toNat ≤ utop.toNat :=
    fun hn => hbelow (Proghdr.ne_zero_iff.mpr hn)
  exact .ite (fun _ => steady_memmoveDown V _ h hdst) fun _ => steady_memmoveUp V _ h hdst

theorem steady_clearBytes {dst n : Word} (h : Loading B cpu e τ)
    (hbelow : (LoadAction.clear dst n).Below) :
    Steady B cpu a ∅ ∅ τ (clearBytes cpu dst n) fun _ => Loading B cpu e := by
  refine steady_storeBytes _ h fun hne => ?_
  rw [List.length_replicate]
  refine hbelow fun hn => hne ?_
  rw [hn]
  rfl

/-! ### `region_alloc` -/

theorem steady_regionAllocLoop (n : ℕ) {begin : Word} (h : Loading B cpu e τ)
    (hva : n ≠ 0 → begin.toNat + n * 4096 ≤ utop.toNat) :
    Steady B cpu a X X τ (regionAllocLoop B cpu e n begin) fun _ => Loading B cpu e := by
  induction n generalizing begin τ with
  | zero =>
    refine (Steady.pure ()).weaken ?_
    rintro _ _ ⟨-, rfl⟩
    exact h
  | succ n ih =>
    have hend := hva (Nat.succ_ne_zero n)
    have hlt : begin < utop := by
      rw [BitVec.lt_def]
      omega
    obtain ⟨free, efree, ht⟩ := h.table
    refine (steady_pageAlloc ht.page 0#32).bind fun p τ₁ halloc => ?_
    cases p with
    | none =>
      -- there is no way out of a panic
      refine (Steady.compute _).weaken ?_
      rintro _ _ ⟨hc, -⟩
      cases hc
    | some p =>
      -- a fresh page can be mapped without an overflow, whatever `page_insert` returns
      obtain ⟨free₁, ht₁, hkeeps₁, hfresh⟩ := pageAlloc_fresh ht halloc
      have h₁ := h.of_keeps hkeeps₁ ⟨free₁, efree, ht₁⟩
      refine (Steady.read _).bind fun pgdir τ₂ hread => ?_
      obtain ⟨rfl, rfl⟩ := hread
      refine (steady_pageInsert ht₁.page (ht₁.env.dirFrame_live h₁.live) ((lt_utop_iff _).mp hlt)
        hfresh.managed hfresh.notMem ht₁.bound_held fun _ => h₁.flushes _).bind fun r τ₃ hins => ?_
      obtain ⟨free₃, ht₃, hkeeps₃⟩ := hfresh.insert ht₁ h₁.live hlt (by decide) hins
      refine ih (h₁.of_keeps hkeeps₃ ⟨free₃, efree, ht₃⟩) fun _ => ?_
      rw [(pgnum_succ_of_lt_utop hlt).1]
      omega

theorem steady_regionAlloc {va len : Word} (h : Loading B cpu e τ)
    (hbelow : (LoadAction.region va len).Below) :
    Steady B cpu a X X τ (regionAlloc B cpu e va len) fun _ => Loading B cpu e :=
  steady_regionAllocLoop _ h hbelow

/-! ### `load_icode` -/

section LoadIcode

variable (V : Variables) (binary : Word)

/-- The three actions for a header, if they are below `UTOP`. -/
theorem loadSegment_at {σ σ' : State} {ph : Word} {as : List LoadAction} (h : Loading B cpu e τ)
    (hat : At B cpu a ∅ τ σ) (hrun : loadSegment B cpu V e binary ph σ as σ')
    (hbelow : ∀ x ∈ as, x.Below) : ∃ τ', Loading B cpu e τ' ∧ At B cpu a ∅ τ' σ' := by
  obtain ⟨type, σ₁, htype, hrun⟩ := hrun
  obtain ⟨_, rfl, hat₁⟩ := steady_loadWord V ph σ type σ₁ hat htype
  by_cases hload : type = elfProgLoad
  · rw [if_pos hload] at hrun
    obtain ⟨memsz, σ₂, hmemsz, va, σ₃, hva, _, σ₄, hregion, hrun⟩ := hrun
    obtain ⟨filesz, σ₅, hfilesz, offset, σ₆, hoffset, va', σ₇, hva', _, σ₈, hcopy, hrun⟩ := hrun
    obtain ⟨filesz', σ₉, hfilesz', memsz', σ₁₀, hmemsz', va'', σ₁₁, hva'', _, σ₁₂, hclear, rfl,
      rfl⟩ := hrun
    simp only [List.mem_cons, List.not_mem_nil, or_false, forall_eq_or_imp, forall_eq] at hbelow
    obtain ⟨hbelow₁, hbelow₂, hbelow₃⟩ := hbelow
    -- the fields are read, and then the action is done
    obtain ⟨_, rfl, hat₂⟩ := steady_loadWord V _ _ _ _ hat₁ hmemsz
    obtain ⟨_, rfl, hat₃⟩ := steady_loadWord V _ _ _ _ hat₂ hva
    obtain ⟨τ₄, h₄, hat₄⟩ := steady_regionAlloc h hbelow₁ _ _ _ hat₃ hregion
    obtain ⟨_, rfl, hat₅⟩ := steady_loadWord V _ _ _ _ hat₄ hfilesz
    obtain ⟨_, rfl, hat₆⟩ := steady_loadWord V _ _ _ _ hat₅ hoffset
    obtain ⟨_, rfl, hat₇⟩ := steady_loadWord V _ _ _ _ hat₆ hva'
    obtain ⟨τ₈, h₈, hat₈⟩ := steady_memmove V h₄ hbelow₂ _ _ _ hat₇ hcopy
    obtain ⟨_, rfl, hat₉⟩ := steady_loadWord V _ _ _ _ hat₈ hfilesz'
    obtain ⟨_, rfl, hat₁₀⟩ := steady_loadWord V _ _ _ _ hat₉ hmemsz'
    obtain ⟨_, rfl, hat₁₁⟩ := steady_loadWord V _ _ _ _ hat₁₀ hva''
    exact steady_clearBytes h₈ hbelow₃ _ _ _ hat₁₁ hclear
  · rw [if_neg hload] at hrun
    obtain ⟨-, rfl⟩ := hrun
    exact ⟨_, h, hat₁⟩

/-- The loop over the headers. -/
theorem loadSegments_at {σ σ' : State} {n : ℕ} {ph : Word} {as : List LoadAction}
    (h : Loading B cpu e τ) (hat : At B cpu a ∅ τ σ)
    (hrun : loadSegments B cpu V e binary n ph σ as σ') (hbelow : ∀ x ∈ as, x.Below) :
    ∃ τ', Loading B cpu e τ' ∧ At B cpu a ∅ τ' σ' := by
  induction n generalizing ph σ as τ with
  | zero =>
    obtain ⟨-, rfl⟩ := hrun
    exact ⟨τ, h, hat⟩
  | succ n ih =>
    obtain ⟨first, σ₁, hfirst, rest, σ₂, hrest, rfl, rfl⟩ := hrun
    obtain ⟨hbelow₁, hbelow₂⟩ := List.forall_mem_append.mp hbelow
    obtain ⟨τ₁, h₁, hat₁⟩ := loadSegment_at V binary h hat hfirst hbelow₁
    exact ih h₁ hat₁ hrest hbelow₂

/-- `load_icode` leaves the TLB right and `kern_pgdir` in `cr3`, if none of its actions is at or
above `UTOP`. -/
theorem loadIcode_at {σ σ' : State} {as : List LoadAction} (h : Loading B cpu e τ)
    (hat : At B cpu a X τ σ) (hrun : loadIcode B cpu V e binary σ as σ')
    (hbelow : ∀ x ∈ as, x.Below) : ∃ τ', Loading B cpu e τ' ∧ At B cpu none ∅ τ' σ' := by
  obtain ⟨phoff, σ₁, hphoff, phnum, σ₂, hphnum, pgdir, σ₃, hpgdir, pa, σ₄, hpa, _, σ₅, hlcr3,
    hrun⟩ := hrun
  obtain ⟨actions, σ₆, hsegments, entry, σ₇, hentry, _, σ₈, hset, pa', σ₉, hpa', _, σ₁₀, hlcr3',
    _, σ₁₁, hstack, rfl, rfl⟩ := hrun
  obtain ⟨_, rfl, hat₁⟩ := steady_loadWord V _ _ _ _ hat hphoff
  obtain ⟨_, rfl, hat₂⟩ := steady_loadValue V _ _ _ _ _ hat₁ hphnum
  obtain ⟨τ₃, ⟨rfl, rfl⟩, hat₃⟩ := Steady.read _ _ _ _ hat₂ hpgdir
  obtain ⟨hpa, rfl⟩ := hpa
  obtain ⟨-, rfl⟩ := paddr_eq_ok.mp hpa
  obtain ⟨free, efree, ht⟩ := h.table
  -- the directory of the new environment
  have hat₅ := lcr3_at (b := some e) (ht.env.dirFrame_live h.live) hat₃ hlcr3
  set τ₅ := Jos.lcr3 cpu ((τ₃.envs e).envPgdir - kernbase) τ₃ with hτ₅
  have h₅ : Loading B cpu e τ₅ := h.of_sameSpaces (.cpus rfl) ((lcr3_table cpu _ τ₃).curenv cpu)
  obtain ⟨τ₆, h₆, hat₆⟩ := loadSegments_at V binary h₅ hat₅ hsegments hbelow
  obtain ⟨τ₇, rfl, hat₇⟩ := steady_loadWord V _ _ _ _ hat₆ hentry
  -- the entry point says nothing about spaces
  have hsame : SameSpaces τ₇ (setEntry e entry τ₇) := .setEnv h₆.live h₆.live rfl rfl
  obtain ⟨_, rfl, hat₈⟩ :=
    Steady.write (.of_sameSpaces hsame rfl rfl) _ _ _ hat₇ hset
  have h₈ := h₆.of_sameSpaces hsame rfl
  obtain ⟨hpa', rfl⟩ := hpa'
  obtain ⟨-, rfl⟩ := paddr_eq_ok.mp hpa'
  have hat₁₀ := lcr3_at (dirFrame_kern B _) hat₈ hlcr3'
  set τ₁₀ := Jos.lcr3 cpu (B.kernPgdir - kernbase) (setEntry e entry τ₇) with hτ₁₀
  have h₁₀ : Loading B cpu e τ₁₀ := h₈.of_sameSpaces (.cpus rfl) ((lcr3_table cpu _ _).curenv cpu)
  have hbelow' : (LoadAction.region (ustacktop - pgsize) pgsize).Below := by decide
  exact steady_regionAlloc h₁₀ hbelow' _ _ _ hat₁₀ hstack

end LoadIcode

end Stepwise

end Jos
