import Jos.Memory.EmptySegment

/-!
# Malformed programs

`load_icode` takes the addresses and sizes in a program header as they are. Two things keep a
malformed header from doing harm. Below `UTOP` there is nothing but the environment's own pages, so
that actions that stay there leave everything else as it was (`Underway.exec`). And a write that
goes upwards from there does not get any further: the array `envs` at `UTOP` cannot be written, and
the kernel faults (`Underway.storeByte_utop`). So if the file has more bytes than memory and
`memset` is given a length of nearly 4 GB, `load_icode` does not return.

But nothing keeps a segment from lying above `UTOP`. `loadIcode_rejects_iff` says that this is the
only way in which `load_icode` returns after it has acted upon a malformed header,
`mapPage_damages` what the first page above `UTOP` does, and `loadIcode_acts_above` is a case of it.
-/

namespace Jos

variable {V : Variables} {B : Boot} {σ σ' σ₀ σ₁ : State} {cpu c n : ℕ} {e : Fin nenv}
  {free : List ℕ} {efree : List (Fin nenv)} {O : Set ℕ} {M : Finset ℕ} {va dst src binary : Word}
  {as : List LoadAction} {t : ℕ} {held : ℕ → ℕ}

/-! ### Writing too far -/

/-- An environment that has a page directory is live. -/
theorem dirFrame_some {e : Fin nenv} {d : ℕ} (h : dirFrame B σ (some e) = some d) :
    Live σ e ∧ frameAt (σ.envs e).envPgdir = d := by
  simp only [dirFrame] at h
  split at h
  · cases h
  · next hnot => exact ⟨fun hc => hnot (Or.inl hc), Option.some.inj h⟩

namespace Underway

variable (h : Underway B cpu e O c efree σ₀ σ) (hlive : Live σ₀ e) (hw : Window B σ₀ t)
include h hlive hw

/-- The table of `UENVS` and its entry in the directory of `e` are still there. -/
theorem uenvs_table : entryOf (σ.mem (frameAt (σ.envs e).envPgdir) envsSlot) = some (t, tablePerm) ∧
    σ.mem t = σ₀.mem t := by
  have hd : dirFrame B σ₀ (some e) = some (frameAt (σ.envs e).envPgdir) := by
    rw [← h.apart.dirs, h.owned.dir]
  have hd₀ : frameAt (σ₀.envs e).envPgdir = frameAt (σ.envs e).envPgdir := (dirFrame_some hd).2
  refine ⟨?_, h.apart.mem_upperTable (by decide) hw.table⟩
  rw [h.apart.upper _ _ hd envsSlot le_rfl, ← hd₀, hw.copy e hlive envsSlot le_rfl (by decide)]
  exact hw.table

/-- Nothing is written at `UTOP`: the array `envs` is mapped there for reading. -/
theorem storeByte_utop (v : Byte) : Jos.storeByte cpu utop v σ ≠ .ok σ' := by
  obtain ⟨htable, hmem⟩ := h.uenvs_table hlive hw
  have hentry : entryOf (σ.mem t 0) = some (B.kernFrame + 1, 5#12) := by
    rw [hmem]
    exact hw.entry 0
  have hwalk : x86Walk σ (frameAt (σ.envs e).envPgdir) (pdx utop) (ptx utop) =
      some (tablePerm, 5#12, B.kernFrame + 1) := x86Walk_eq_some.mpr ⟨t, htable, hentry⟩
  have haccess := (kernelAccess_eq_some (w := false) (by decide)).mpr ⟨_, _, hwalk, by decide⟩
  rw [Jos.storeByte, h.cr3, haccess]
  simp

/-- Below `UTOP` or at it, the byte that has been written is below it. -/
theorem lt_utop {v : Byte} (hva : va.toNat ≤ utop.toNat)
    (hrun : Jos.storeByte cpu va v σ = .ok σ') : va < utop := by
  refine BitVec.lt_of_le_ne hva ?_
  rintro rfl
  exact h.storeByte_utop hlive hw v hrun

/-- `memset` from below `UTOP` on returns only if it does not come as far as `UTOP`. -/
theorem storeBytes_within {bs : List Byte} (hva : va.toNat ≤ utop.toNat)
    (hrun : Jos.storeBytes cpu bs va σ = .ok σ') : va.toNat + bs.length ≤ utop.toNat := by
  induction bs generalizing σ va with
  | nil => exact hva
  | cons v bs ih =>
    obtain ⟨σ₁, hstore, hrest⟩ := bind_eq_ok.mp hrun
    have hlt := h.lt_utop hlive hw hva hstore
    have hnext := toNat_succ_of_lt_utop hlt
    have hend := ih (h.storeByte hlt hstore) (by rw [hnext]; exact hlt) hrest
    rw [List.length_cons]
    omega

/-- So does `memcpy`, if it goes upwards. -/
theorem memmoveUp_within (hdst : dst.toNat ≤ utop.toNat)
    (hrun : Jos.memmoveUp V cpu n dst src σ = .ok σ') : dst.toNat + n ≤ utop.toNat := by
  induction n generalizing σ dst src with
  | zero => exact hdst
  | succ n ih =>
    obtain ⟨b, -, hrun⟩ := bind_eq_ok.mp hrun
    obtain ⟨σ₁, hstore, hrest⟩ := bind_eq_ok.mp hrun
    have hlt := h.lt_utop hlive hw hdst hstore
    have hnext := toNat_succ_of_lt_utop hlt
    have hend := ih (h.storeByte hlt hstore) (by rw [hnext]; exact hlt) hrest
    omega

/-- An action that has returned has not gone beyond `UTOP` from below. -/
theorem below {a : LoadAction} (hcont : a.Contained) (hrun : a.exec V B cpu e σ = .ok σ') :
    a.Below := by
  cases a with
  | region va len => exact hcont
  | copy dst src n =>
    intro hn
    obtain hend | ⟨hdst, hover⟩ := hcont hn
    · exact hend
    · change memmove V cpu dst src n σ = .ok σ' at hrun
      rw [memmove, if_neg hover] at hrun
      exact h.memmoveUp_within hlive hw hdst hrun
  | clear dst n =>
    intro hn
    have hend := h.storeBytes_within hlive hw (hcont hn) hrun
    rwa [List.length_replicate] at hend

/-- A run of actions of which none begins above `UTOP`. -/
theorem actions (hcont : ∀ a ∈ as, a.Contained)
    (hrun : LoadAction.execAll V B cpu e as σ = .ok σ') :
    (∀ a ∈ as, a.Below) ∧ Underway B cpu e O c efree σ₀ σ' := by
  induction as generalizing σ with
  | nil =>
    obtain rfl := Except.ok.inj hrun
    exact ⟨List.forall_mem_nil _, h⟩
  | cons a as ih =>
    obtain ⟨hfirst, hrest⟩ := List.forall_mem_cons.mp hcont
    rw [LoadAction.execAll, List.foldlM_cons] at hrun
    obtain ⟨σ₁, hstep, hrun⟩ := bind_eq_ok.mp hrun
    have hbelow := h.below hlive hw hfirst hstep
    obtain ⟨hall, h'⟩ := ih (h.exec hbelow hstep) hrest hrun
    exact ⟨List.forall_mem_cons.mpr ⟨hbelow, hall⟩, h'⟩

/-! ### A program in kernel memory -/

section Held

variable {image : Word → Byte} {ph : Word} (hheld : Held V B e image binary σ₀)
include hheld

/-- For a header that is in kernel memory the three actions are those of its fields, as long as
these are contained or what is done is. -/
theorem loadSegment_log {i : ℕ}
    (hi : i < headerCount (binary + elfPhoff image binary) (elfPhnum image binary))
    (hph : ph = binary + elfPhoff image binary + BitVec.ofNat 32 (32 * i))
    (hcont : (∀ a ∈ (elfHeader image binary i).actions binary, a.Contained) ∨
      ∀ a ∈ as, a.Contained)
    (hrun : loadSegment V B cpu e binary ph σ = ⟨as, .ok σ'⟩) :
    as = (elfHeader image binary i).actions binary := by
  have hheader : elfHeader image binary i = proghdrAt image ph := by rw [hph]; rfl
  rw [hheader] at hcont ⊢
  obtain ⟨htype, -, hva, -, hmemsz⟩ := h.loadHeader hheld hi hph
  rw [loadSegment, htype, Load.quiet_ok_bind] at hrun
  rw [Proghdr.actions] at hcont ⊢
  split at hrun
  · next hseg =>
    rw [if_pos hseg] at hcont ⊢
    rw [hmemsz, Load.quiet_ok_bind, hva, Load.quiet_ok_bind] at hrun
    obtain ⟨_, σ₁, _, hregion, hrun₁, rfl⟩ := Logged.bind_eq_mk.mp hrun
    obtain ⟨rfl, hexec₁⟩ := Logged.mk.inj hregion
    have hcont₁ := hcont.elim (· _ List.mem_cons_self) (· _ List.mem_cons_self)
    -- the header is still there, and so it is after the copy
    have h₁ := h.exec (h.below hlive hw hcont₁ hexec₁) hexec₁
    obtain ⟨-, hoffset, hva, hfilesz, -⟩ := h₁.loadHeader hheld hi hph
    rw [hfilesz, Load.quiet_ok_bind, hoffset, Load.quiet_ok_bind, hva, Load.quiet_ok_bind] at hrun₁
    obtain ⟨_, σ₂, _, hcopy, hrun₂, rfl⟩ := Logged.bind_eq_mk.mp hrun₁
    obtain ⟨rfl, hexec₂⟩ := Logged.mk.inj hcopy
    have hcont₂ := hcont.elim (· _ (List.mem_cons_of_mem _ List.mem_cons_self))
      (· _ (List.mem_cons_of_mem _ List.mem_cons_self))
    have h₂ := h₁.exec (h₁.below hlive hw hcont₂ hexec₂) hexec₂
    obtain ⟨-, -, hva, hfilesz, hmemsz⟩ := h₂.loadHeader hheld hi hph
    rw [hfilesz, Load.quiet_ok_bind, hmemsz, Load.quiet_ok_bind, hva, Load.quiet_ok_bind] at hrun₂
    obtain ⟨rfl, -⟩ := Logged.mk.inj hrun₂
    rfl
  · next hseg =>
    rw [if_neg hseg]
    exact (Logged.mk.inj hrun).1.symm

theorem loadSegments_log {m : ℕ}
    (hn : m + n ≤ headerCount (binary + elfPhoff image binary) (elfPhnum image binary))
    (hph : ph = binary + elfPhoff image binary + BitVec.ofNat 32 (32 * m))
    (hcont : (∀ i ∈ List.range' m n, ∀ a ∈ (elfHeader image binary i).actions binary,
      a.Contained) ∨ ∀ a ∈ as, a.Contained)
    (hrun : loadSegments V B cpu e binary n ph σ = ⟨as, .ok σ'⟩) :
    as = (List.range' m n).flatMap fun i => (elfHeader image binary i).actions binary := by
  induction n generalizing σ ph m as with
  | zero => exact (Logged.mk.inj hrun).1.symm
  | succ n ih =>
    obtain ⟨as₁, σ₁, as₂, hsegment, hsegments, rfl⟩ := Logged.bind_eq_mk.mp hrun
    rw [List.range'_succ, List.forall_mem_cons, List.forall_mem_append] at hcont
    obtain rfl := h.loadSegment_log hlive hw hheld (by omega) hph (hcont.imp (·.1) (·.1)) hsegment
    have hfirst := hcont.elim (·.1) (·.1)
    have hrest := hcont.imp (·.2) (·.2)
    obtain ⟨-, h₁⟩ := h.actions hlive hw hfirst (loadSegment_acted ph σ _ _ hsegment)
    rw [List.range'_succ, List.flatMap_cons, ih h₁ (m := m + 1) (by omega) ?_ hrest hsegments]
    rw [hph, BitVec.add_assoc, ← BitVec.ofNat_add, Nat.mul_add, Nat.mul_one]

end Held

end Underway

/-! ### `load_icode` -/

/-- From `σ` to `σ'` a program has been loaded into `e` without harm to anything else. -/
structure Undamaged (B : Boot) (e : Fin nenv) (σ σ' : State) : Prop where
  /-- The directory entries at and above `UTOP`, in all address spaces. -/
  pdes : ∀ a d, dirFrame B σ a = some d → dirFrame B σ' a = some d ∧
    ∀ k : Fin 1024, 955 ≤ k.val → σ'.mem d k = σ.mem d k
  /-- The page tables behind them. What `e` has at `UVPT` is its directory, where the page tables
  of the program are entered. -/
  ptes : ∀ a d, dirFrame B σ a = some d → ∀ k : Fin 1024, 955 ≤ k.val →
    ¬(a = some e ∧ k = pdx uvpt) → ∀ u, entryOf (σ.mem d k) = some u → σ'.mem u.1 = σ.mem u.1
  /-- The pages that are reserved at boot. -/
  reserved : ∀ f, ¬B.Managed f → σ'.mem f = σ.mem f
  others : ∀ e', e' ≠ e → Live σ e' → ∀ a, translate σ' e' a = translate σ e' a ∧
    (a < utop → userMemory σ' e' a = userMemory σ e' a)

theorem Apart.undamaged (h : Apart B e σ σ') (hinv : MemInv B σ free efree) (hw : Window B σ t) :
    Undamaged B e σ σ' where
  pdes a d hd := ⟨(h.dirs a).trans hd, h.upper a d hd⟩
  ptes a d hd k hk hnot u hu := by
    cases a with
    | none =>
      obtain rfl := Option.some.inj hd
      by_cases huvpt : k = pdx uvpt
      · -- the kernel's directory is its own page table too
        rw [huvpt, hinv.entryOf_self] at hu
        obtain rfl := Option.some.inj hu
        exact h.mem _ (Or.inl fun hc => hc.ne_kernFrame rfl)
      · exact h.mem_upperTable huvpt hu
    | some e' =>
      obtain ⟨hlive, rfl⟩ := dirFrame_some hd
      by_cases hne : e' = e
      · subst hne
        have huvpt : k ≠ pdx uvpt := fun hc => hnot ⟨rfl, hc⟩
        rw [hw.copy e' hlive k hk huvpt] at hu
        exact h.mem_upperTable huvpt hu
      · exact h.mem_table hinv hne hlive hw hu
  reserved f hf := h.mem f (Or.inl hf)
  others e' hne hlive a :=
    ⟨h.translate_eq hinv hne hlive hw a, h.userMemory_eq hinv hne hlive⟩

/-- When the loop has come to its end within the pages of `e`, and there was a page for the
stack, nothing else has changed. -/
theorem Underway.stack_apart {entry : Word} (h : Underway B cpu e O c efree σ₀ σ₁)
    (hstack : regionAlloc B cpu e (ustacktop - pgsize) pgsize
      (lcr3 cpu (B.kernPgdir - kernbase) (setEntry e entry σ₁)) = .ok σ') : Apart B e σ₀ σ' := by
  have hsame := sameSpaces_setEntry h.owned.live cpu entry (B.kernPgdir - kernbase)
  obtain hnone | ⟨free, M, hload⟩ := h.pages
  · have hnone₂ : (lcr3 cpu (B.kernPgdir - kernbase) (setEntry e entry σ₁)).pageFreeList = none :=
      hnone
    exact absurd hnone₂ (pageFreeList_of_stack hstack)
  · have hload₂ := hload.of_sameSpaces hsame
    rw [regionAlloc_stack] at hstack
    have hentry := Apart.of_sameSpaces (B := B) (e := e) hsame fun e' hne => by
      change (setEntry e entry σ₁).envs e' = _
      exact Function.update_of_ne hne ..
    exact (h.apart.trans hentry).trans (hload₂.mapPage_apart (by decide) hstack)

/-! ### The damage -/

/-- The directory entry of `va` has changed, or the entry in the page table that was there. -/
def EntryChanged (σ σ' : State) (d : ℕ) (va : Word) : Prop :=
  σ'.mem d (pdx va) ≠ σ.mem d (pdx va) ∨
    ∃ u, entryOf (σ.mem d (pdx va)) = some u ∧ σ'.mem u.1 (ptx va) ≠ σ.mem u.1 (ptx va)

/-- Where there is a page table, `page_insert` writes its entry. -/
theorem pageInsert_entry {pgdir perm : Word} {pp : ℕ} {r : ℤ} {u : ℕ × BitVec 12}
    (hu : entryOf (σ.mem (frameAt pgdir) (pdx va)) = some u)
    (hrun : pageInsert B cpu pgdir pp va perm σ = .ok (r, σ')) :
    σ'.mem u.1 (ptx va) = page2pa pp ||| perm ||| pteP := by
  obtain ⟨hpresent, hframe, -⟩ := entryOf_eq_some.mp (show _ = some (u.1, u.2) from hu)
  obtain ⟨⟨pte, σ₁⟩, hwalk, hrest⟩ := bind_eq_ok.mp hrun
  rw [pgdirWalk, if_pos (show present (σ.load (pgdir, pdx va)) = true from hpresent), walkTable]
    at hwalk
  obtain ⟨kva, hkva, hret⟩ := bind_eq_ok.mp hwalk
  obtain ⟨rfl, rfl⟩ := Prod.mk.inj (Except.ok.inj hret)
  have hkframe : frameAt kva = u.1 := by
    obtain ⟨-, rfl⟩ := kaddr_eq_ok.mp hkva
    rw [frameAt_add_kernbase]
    exact hframe
  obtain ⟨σ₁, -, rfl⟩ := pageInsertAt_ok hrest
  rw [← hkframe]
  exact congrFun (setWord_mem_self ..) _ |>.trans (Function.update_self ..)

namespace Underway

variable (h : Underway B cpu e O c efree σ₀ σ) (hlive : Live σ₀ e) (hw : Window B σ₀ t)
include h hlive hw

/-- What the directory of `e` has at and above `UTOP`. -/
theorem upper_entry {k : Fin 1024} (hk : 955 ≤ k.val) :
    entryOf (σ.mem (frameAt (σ.envs e).envPgdir) k) =
      if k = pdx uvpt then some (frameAt (σ.envs e).envPgdir, 5#12)
      else entryOf (σ.mem B.kernFrame k) := by
  have hd : dirFrame B σ₀ (some e) = some (frameAt (σ.envs e).envPgdir) := by
    rw [← h.apart.dirs, h.owned.dir]
  have hd₀ : frameAt (σ₀.envs e).envPgdir = frameAt (σ.envs e).envPgdir := (dirFrame_some hd).2
  rw [h.apart.upper _ _ hd k hk, ← hd₀]
  split
  · next huvpt =>
    rw [huvpt]
    exact hw.own e hlive
  · next hout => rw [hw.copy e hlive k hk hout, h.apart.upper none B.kernFrame rfl k hk]

/-- Mapping a page at or above `UTOP` changes the entry of the directory or of the page table
there: for `UENVS` the page table is that of all environments, for `UVPT` it is the directory. -/
theorem mapPage_damages (hva : utop ≤ va) (hrun : Jos.regionAllocLoop B cpu e 1 va σ = .ok σ')
    (hsome : σ'.pageFreeList ≠ none) :
    EntryChanged σ σ' (frameAt (σ.envs e).envPgdir) va := by
  have hi : 955 ≤ (pdx va).val := by
    rw [← not_lt, ← lt_utop_iff, BitVec.not_lt]
    exact hva
  obtain hnone | ⟨free, M, hload⟩ := h.pages
  · exact absurd (regionAllocLoop_none hnone hrun).1 Nat.one_ne_zero
  cases free with
  | nil =>
    simp only [Jos.regionAllocLoop, pageAlloc_nil hload.page, ok_bind] at hrun
    cases hrun
  | cons p free =>
    obtain ⟨σ₁, halloc, hhand, hslots, hkeeps⟩ := hload.alloc
    have hmem : σ₁.mem = σ.mem := pageAlloc_zero_mem halloc
    simp only [Jos.regionAllocLoop, halloc, ok_bind] at hrun
    obtain ⟨⟨r, σ₂⟩, hins, hret⟩ := bind_eq_ok.mp hrun
    obtain rfl := Except.ok.inj hret
    rw [hkeeps.envs] at hins
    set d := frameAt (σ.envs e).envPgdir with hd
    cases hu : entryOf (σ₁.mem d (pdx va)) with
    | none =>
      -- a page table is made, if there is a page for it
      left
      have hd₁ : dirFrame B σ₁ (some e) = some d := by rw [hkeeps.dirFrame, hload.dir]
      cases free with
      | nil =>
        obtain ⟨-, rfl⟩ := ok_unique_pair (pageInsert_full hhand.page hu cpu p _) hins
        exact absurd (hhand.page.chain.head_none_iff.mpr rfl) hsome
      | cons t' free =>
        obtain ⟨σ₃, hins', -, -, -, hentry, -⟩ := pageInsert_upper hhand.page hd₁ hi hu
          hhand.fresh.managed (fun hc => hhand.fresh.notMem (List.mem_cons_of_mem _ hc)) _ cpu
        obtain ⟨-, rfl⟩ := ok_unique_pair hins' hins
        intro hc
        rw [hc, ← hmem, hu] at hentry
        cases hentry
    | some u =>
      right
      have hnew := pageInsert_entry hu hins
      rw [hmem] at hu
      refine ⟨u, hu, fun hc => ?_⟩
      -- the entry would have referred to the new page already, for reading and writing
      have hold : entryOf (σ.mem u.1 (ptx va)) = some (p, 7#12) := by
        rw [← hc, hnew, entryOf_page2pa hhand.fresh.managed.lt_pow (by decide)]
        rfl
      have hunref : ∀ s, slotRef B σ s ≠ some p := hload.page.slot_ne_of_mem List.mem_cons_self
      rw [h.upper_entry hlive hw hi] at hu
      split at hu
      · next huvpt =>
        obtain rfl := Option.some.inj hu
        by_cases hk : (ptx va).val < 955
        · exact hunref (.pde (some e) (ptx va))
            (Separated.slotRef_pde hload.dir (tracked_of_lt hk _) hold)
        · rw [h.upper_entry hlive hw (by omega)] at hold
          split at hold
          · cases hold
          · next hout => exact hunref (.pde none (ptx va)) (Separated.slotRef_pde rfl hout hold)
      · next hout =>
        rw [h.apart.upper none B.kernFrame rfl _ hi] at hu
        by_cases henvs : pdx va = envsSlot
        · -- the table of `UENVS` is for reading
          rw [henvs, hw.table] at hu
          obtain rfl := Option.some.inj hu
          rw [(h.uenvs_table hlive hw).2, hw.entry] at hold
          cases hold
        · rw [hw.nothing _ (lt_of_le_of_ne hi fun hc => henvs (Fin.ext hc.symm)) hout] at hu
          cases hu

/-- The first page at or above `UTOP` that `region_alloc` maps. -/
theorem region_damages (hn : n ≠ 0) (hva : va.toNat % 4096 = 0)
    (hbeyond : utop.toNat < va.toNat + n * 4096)
    (hrun : Jos.regionAllocLoop B cpu e n va σ = .ok σ') (hsome : σ'.pageFreeList ≠ none) :
    ∃ m b σ₁ σ₂, m < n ∧ utop ≤ b ∧ Jos.regionAllocLoop B cpu e m va σ = .ok σ₁ ∧
      Jos.regionAllocLoop B cpu e 1 b σ₁ = .ok σ₂ ∧
      EntryChanged σ₁ σ₂ (frameAt (σ₁.envs e).envPgdir) b := by
  induction n generalizing σ va with
  | zero => exact absurd rfl hn
  | succ n ih =>
    obtain ⟨σ₁, hfirst, hrest⟩ := ImageInv.regionAllocLoop_succ.mp hrun
    by_cases hlt : va < utop
    · -- the page is below `UTOP`, so that there is another one
      have hnext := (pgnum_succ_of_lt_utop hlt).1
      have htop : utop.toNat = 977920 * 4096 := by decide
      have hlt' := hlt
      rw [BitVec.lt_def] at hlt'
      obtain ⟨m, b, σ₂, σ₃, hm, hb, hloop, hrest'⟩ := ih (h.mapPage hlt hfirst) (by
        rintro rfl
        omega) (by omega) (by omega) hrest
      have hloop' := ImageInv.regionAllocLoop_succ.mpr ⟨σ₁, hfirst, hloop⟩
      exact ⟨m + 1, b, σ₂, σ₃, Nat.succ_lt_succ hm, hb, hloop', hrest'⟩
    · have hva' : utop ≤ va := BitVec.not_lt.mp hlt
      have hsome₁ : σ₁.pageFreeList ≠ none := fun hc =>
        hsome (by rw [(regionAllocLoop_none hc hrest).2, hc])
      exact ⟨0, va, σ, σ₁, Nat.succ_pos n, hva', rfl, hfirst,
        h.mapPage_damages hlive hw hva' hfirst hsome₁⟩

/-- At or above `UTOP` a byte can be written only from `KERNBASE` on, to physical memory. -/
theorem storeByte_above {v : Byte} (hva : utop ≤ va) (hrun : Jos.storeByte cpu va v σ = .ok σ') :
    kernbase ≤ va ∧ σ' = σ.setByte (frameAt va) (pgoff va) v := by
  have hi : 955 ≤ (pdx va).val := by
    rw [← not_lt, ← lt_utop_iff, BitVec.not_lt]
    exact hva
  -- what is mapped there is mapped for reading
  have hreadOnly (π₁ π₂ : BitVec 12) (f : ℕ)
      (hwalk : x86Walk σ (frameAt (σ.envs e).envPgdir) (pdx va) (ptx va) = some (π₁, π₂, f)) :
      (π₁.getLsbD 1 && π₂.getLsbD 1) = false := by
    obtain ⟨p, hpde, hpte⟩ := x86Walk_eq_some.mp hwalk
    rw [h.upper_entry hlive hw hi] at hpde
    split at hpde
    · obtain ⟨rfl, rfl⟩ := Prod.mk.inj (Option.some.inj hpde)
      rfl
    · next hout =>
      rw [h.apart.upper none B.kernFrame rfl _ hi] at hpde
      by_cases henvs : pdx va = envsSlot
      · rw [henvs, hw.table] at hpde
        obtain ⟨rfl, rfl⟩ := Prod.mk.inj (Option.some.inj hpde)
        rw [(h.uenvs_table hlive hw).2, hw.entry] at hpte
        obtain ⟨rfl, rfl⟩ := Prod.mk.inj (Option.some.inj hpte)
        rfl
      · rw [hw.nothing _ (lt_of_le_of_ne hi fun hc => henvs (Fin.ext hc.symm)) hout] at hpde
        cases hpde
  unfold Jos.storeByte at hrun
  rw [h.cr3] at hrun
  cases hwalk : x86Walk σ (frameAt (σ.envs e).envPgdir) (pdx va) (ptx va) with
  | some r =>
    obtain ⟨π₁, π₂, f⟩ := r
    rw [kernelAccess, hwalk] at hrun
    simp only [hreadOnly π₁ π₂ f hwalk] at hrun
    cases hrun
  | none =>
    rw [kernelAccess, hwalk] at hrun
    by_cases hk : kernbase ≤ va
    · rw [if_pos hk] at hrun
      exact ⟨hk, (Except.ok.inj hrun).symm⟩
    · rw [if_neg hk] at hrun
      cases hrun

/-- A copy that goes downwards and has a byte to write beyond `UTOP` writes one to physical
memory. -/
theorem memmoveDown_above (hrun : Jos.memmoveDown V cpu n dst src σ = .ok σ')
    (habove : ∃ k < n, utop ≤ dst + BitVec.ofNat 32 k) :
    ∃ k < n, kernbase ≤ dst + BitVec.ofNat 32 k := by
  induction n generalizing σ with
  | zero => obtain ⟨k, hk, -⟩ := habove; omega
  | succ n ih =>
    obtain ⟨b, -, hrun⟩ := bind_eq_ok.mp hrun
    obtain ⟨σ₁, hstore, hrest⟩ := bind_eq_ok.mp hrun
    by_cases hlast : utop ≤ dst + BitVec.ofNat 32 n
    · exact ⟨n, n.lt_succ_self, (h.storeByte_above hlive hw hlast hstore).1⟩
    · -- the last byte is the environment's, and so are all until the one beyond `UTOP`
      have hlt : dst + BitVec.ofNat 32 n < utop := BitVec.not_le.mp hlast
      obtain ⟨k, hk, hka⟩ := habove
      have hkn : k ≠ n := by
        rintro rfl
        exact hlast hka
      obtain ⟨j, hj, hja⟩ := ih (h.storeByte hlt hstore) hrest ⟨k, by omega, hka⟩
      exact ⟨j, hj.trans n.lt_succ_self, hja⟩

end Underway

/-- What an action does that reaches beyond `UTOP`: `region_alloc` changes a page table or the page
directory for a page there, and a byte that is written there is written to physical memory. -/
def LoadAction.Harm (B : Boot) (cpu : ℕ) (e : Fin nenv) (σ : State) : LoadAction → Prop
  | .region va len => ∃ m b σ₁ σ₂, m < regionPages va len ∧ utop ≤ b ∧
      regionAllocLoop B cpu e m (roundDown va pgsize) σ = .ok σ₁ ∧
      regionAllocLoop B cpu e 1 b σ₁ = .ok σ₂ ∧
      EntryChanged σ₁ σ₂ (frameAt (σ₁.envs e).envPgdir) b
  | .copy dst _ n => ∃ k < n.toNat, kernbase ≤ dst + BitVec.ofNat 32 k
  | .clear dst _ => kernbase ≤ dst

/-- A copy that ends beyond `UTOP` has a byte there. -/
theorem exists_above {n : Word} (hend : utop.toNat < dst.toNat + n.toNat) (hn : n ≠ 0#32) :
    ∃ k < n.toNat, utop ≤ dst + BitVec.ofNat 32 k := by
  by_cases hdst : utop ≤ dst
  · refine ⟨0, ?_, by simpa using hdst⟩
    exact Nat.pos_of_ne_zero (Proghdr.ne_zero_iff.mp hn)
  · have hlt : dst.toNat < utop.toNat := BitVec.lt_def.mp (BitVec.not_le.mp hdst)
    refine ⟨utop.toNat - dst.toNat, by omega, ?_⟩
    have hsum : dst + BitVec.ofNat 32 (utop.toNat - dst.toNat) = utop := by
      apply BitVec.eq_of_toNat_eq
      rw [BitVec.toNat_add, BitVec.toNat_ofNat, Nat.add_mod_mod, Nat.add_sub_cancel' hlt.le]
      exact Nat.mod_eq_of_lt utop.isLt
    exact BitVec.le_of_eq hsum.symm

/-- An action that returns and is not contained does harm. -/
theorem Underway.harm {a : LoadAction} (h : Underway B cpu e O c efree σ₀ σ) (hlive : Live σ₀ e)
    (hw : Window B σ₀ t) (hnot : ¬a.Contained) (hrun : a.exec V B cpu e σ = .ok σ')
    (hsome : σ'.pageFreeList ≠ none) : a.Harm B cpu e σ := by
  cases a with
  | region va len =>
    obtain ⟨hn, hend⟩ := Classical.not_imp.mp hnot
    exact h.region_damages hlive hw hn (by rw [roundDown_pgsize]; omega) (not_le.mp hend) hrun hsome
  | copy dst src n =>
    obtain ⟨hn, hend⟩ := Classical.not_imp.mp hnot
    obtain ⟨hover, hdst⟩ := not_or.mp hend
    change memmove V cpu dst src n σ = .ok σ' at hrun
    rw [memmove] at hrun
    split at hrun
    · exact h.memmoveDown_above hlive hw hrun (exists_above (not_le.mp hover) hn)
    · next hup =>
      -- upwards it is the first byte
      have hdst : utop ≤ dst :=
        BitVec.le_of_lt (BitVec.not_le.mp fun hle => hdst ⟨hle, hup⟩)
      obtain ⟨k, hk⟩ := Nat.exists_eq_succ_of_ne_zero (Proghdr.ne_zero_iff.mp hn)
      rw [hk] at hrun
      obtain ⟨b, -, hrun⟩ := bind_eq_ok.mp hrun
      obtain ⟨σ₁, hstore, -⟩ := bind_eq_ok.mp hrun
      refine ⟨0, by omega, ?_⟩
      simpa using (h.storeByte_above hlive hw hdst hstore).1
  | clear dst n =>
    obtain ⟨hn, hlt⟩ := Classical.not_imp.mp hnot
    obtain ⟨k, hk⟩ := Nat.exists_eq_succ_of_ne_zero (Proghdr.ne_zero_iff.mp hn)
    change Jos.storeBytes cpu (List.replicate n.toNat 0#8) dst σ = .ok σ' at hrun
    rw [hk, List.replicate_succ] at hrun
    obtain ⟨σ₁, hstore, -⟩ := bind_eq_ok.mp hrun
    exact (h.storeByte_above hlive hw (BitVec.le_of_lt (BitVec.not_le.mp hlt)) hstore).1

/-- The first of the actions that reaches beyond `UTOP`, or begins there, does harm. Until then
nothing has been damaged. -/
def Damages (V : Variables) (B : Boot) (cpu : ℕ) (e : Fin nenv) (σ : State)
    (as : List LoadAction) : Prop :=
  ∃ before a after σ₁, as = before ++ a :: after ∧ (∀ b ∈ before, b.Below) ∧ ¬a.Contained ∧
    LoadAction.execAll V B cpu e before (lcr3 cpu ((σ.envs e).envPgdir - kernbase) σ) = .ok σ₁ ∧
    Undamaged B e σ σ₁ ∧ a.Harm B cpu e σ₁

/-- From the start of `load_icode` on, actions that are not all contained do damage. -/
theorem LoadInv.damages (h : LoadInv B e O c efree σ free M) (hinv : MemInv B σ free efree)
    (hw : Window B σ t)
    (hrun : LoadAction.execAll V B cpu e as (lcr3 cpu ((σ.envs e).envPgdir - kernbase) σ) = .ok σ')
    (hsome : σ'.pageFreeList ≠ none) (hbad : ¬∀ a ∈ as, a.Contained) :
    Damages V B cpu e σ as := by
  classical
  -- the first one that is not contained
  obtain ⟨a, hfind⟩ : ∃ a, as.find? (fun a => ¬a.Contained) = some a := by
    rw [← Option.isSome_iff_exists, List.find?_isSome]
    push Not at hbad
    simpa using hbad
  obtain ⟨hnot, before, after, rfl, hbefore⟩ := List.find?_eq_some_iff_append.mp hfind
  rw [LoadAction.execAll, List.foldlM_append] at hrun
  obtain ⟨σ₁, hfirst, hrest⟩ := bind_eq_ok.mp hrun
  rw [List.foldlM_cons] at hrest
  obtain ⟨σ₂, hharm, hafter⟩ := bind_eq_ok.mp hrest
  have hsome₂ : σ₂.pageFreeList ≠ none := fun hc => hsome (LoadAction.execAll_none hafter hc)
  obtain ⟨hbelow, hunder⟩ :=
    (h.start cpu).actions h.live hw (fun b hb => by simpa using hbefore b hb) hfirst
  exact ⟨before, a, after, σ₁, rfl, hbelow, by simpa using hnot, hfirst,
    hunder.apart.undamaged hinv hw, hunder.harm h.live hw (by simpa using hnot) hharm hsome₂⟩

/-! ### `load_icode` -/

/-- For a program in kernel memory the headers are read as the same ones each time, as long as the
actions are contained. -/
theorem loadIcode_log {image : Word → Byte} (h : UpperInv B σ₀) {parentId : Word}
    (hal : envAlloc B parentId σ₀ = .ok (0, some e, σ)) (hheld : HoldsImage V B σ image binary)
    (hcr3 : Mirrors B σ (pgnum (σ.cpus cpu).cr3))
    (hcont : (∀ a ∈ (proghdrs image binary).flatMap (Proghdr.actions binary), a.Contained) ∨
      ∀ a ∈ as, a.Contained)
    (hrun : loadIcode V B cpu e binary σ = ⟨as, .ok σ'⟩) :
    as = (proghdrs image binary).flatMap (Proghdr.actions binary) := by
  obtain ⟨t, free₀, efree₀, hinv₀, hw₀⟩ := h
  obtain ⟨rest, p, free, rfl, rfl, hinv, halloc⟩ := hinv₀.envAlloc_zero hal
  have hload := LoadInv.of_envAllocated hinv₀ hinv halloc
  have hw : Window B σ t := hw₀.of_envAllocated hinv₀ List.mem_cons_self halloc
  have hpm : B.Managed p := hinv₀.page.free_managed p List.mem_cons_self
  have hhigh : kernbase ≤ (σ.envs e).envPgdir := hinv.env.pgdir e hload.live
  obtain ⟨hphoff, hphnum⟩ := hheld.loadElf hcr3
  simp only [loadIcode, hphoff, hphnum, Load.quiet_ok_bind, paddr_eq_ok.mpr ⟨hhigh, rfl⟩] at hrun
  obtain ⟨as₁, σ₁, _, hsegments, hrest, rfl⟩ := Logged.bind_eq_mk.mp hrun
  -- only the loop has a log
  obtain ⟨_, -, hrest⟩ := Load.quiet_bind_eq.mp hrest
  obtain ⟨_, -, hrest⟩ := Load.quiet_bind_eq.mp hrest
  obtain ⟨rfl, -⟩ := Logged.mk.inj hrest
  rw [proghdrs, List.flatMap_map, List.range_eq_range'] at hcont ⊢
  rw [List.append_nil] at hcont ⊢
  refine (hload.start cpu).loadSegments_log hload.live hw (hload.held hheld (halloc.mirrors hpm))
    (by omega) (by rw [BitVec.add_zero]) (hcont.imp_left fun hall i hi a ha => ?_) hsegments
  exact hall a (List.mem_flatMap.mpr ⟨i, hi, ha⟩)

/-- So that the actions are contained is about the fields of its headers. -/
theorem loadIcode_contained_iff {image : Word → Byte} (h : UpperInv B σ₀) {parentId : Word}
    (hal : envAlloc B parentId σ₀ = .ok (0, some e, σ)) (hheld : HoldsImage V B σ image binary)
    (hcr3 : Mirrors B σ (pgnum (σ.cpus cpu).cr3))
    (hrun : loadIcode V B cpu e binary σ = ⟨as, .ok σ'⟩) :
    (∀ a ∈ as, a.Contained) ↔
      ∀ ph ∈ proghdrs image binary, ∀ a ∈ ph.actions binary, a.Contained := by
  constructor
  · intro hall
    rw [← List.forall_mem_flatMap, ← loadIcode_log h hal hheld hcr3 (.inr hall) hrun]
    exact hall
  · intro hall
    rw [← List.forall_mem_flatMap] at hall
    rw [loadIcode_log h hal hheld hcr3 (.inl hall) hrun]
    exact hall

/-- When `load_icode` returns, a malformed header has been acted upon exactly if there was an action
above `UTOP`: otherwise nothing is damaged, and then the first such action has done damage. For
a program in kernel memory this is about the fields of its headers. -/
theorem loadIcode_rejects_iff (h : UpperInv B σ₀) {parentId : Word}
    (hal : envAlloc B parentId σ₀ = .ok (0, some e, σ))
    (hrun : loadIcode V B cpu e binary σ = ⟨as, .ok σ'⟩) :
    (((∀ a ∈ as, a.Below) ∧ Undamaged B e σ σ') ↔ ∀ a ∈ as, a.Contained) ∧
    ((¬∀ a ∈ as, a.Contained) → Damages V B cpu e σ as) ∧
    (∀ hdrs : List Proghdr, as = hdrs.flatMap (Proghdr.actions binary) →
      ((∀ a ∈ as, a.Below) ↔ NoneMalformed hdrs)) ∧
    ∀ image, HoldsImage V B σ image binary → Mirrors B σ (pgnum (σ.cpus cpu).cr3) →
      (((∀ a ∈ as, a.Below) ∧ Undamaged B e σ σ') ↔
        ∀ ph ∈ proghdrs image binary, ∀ a ∈ ph.actions binary, a.Contained) := by
  obtain ⟨t, free₀, efree₀, hinv₀, hw₀⟩ := id h
  obtain ⟨rest, p, free, rfl, rfl, hinv, halloc⟩ := hinv₀.envAlloc_zero hal
  have hload := LoadInv.of_envAllocated hinv₀ hinv halloc
  have hw : Window B σ t := hw₀.of_envAllocated hinv₀ List.mem_cons_self halloc
  obtain ⟨entry, σ₁, -, hactions, hstack⟩ := loadIcode_run hrun
  have hrejects : ((∀ a ∈ as, a.Below) ∧ Undamaged B e σ σ') ↔ ∀ a ∈ as, a.Contained := by
    refine ⟨fun hc a ha => (hc.1 a ha).contained, fun hc => ?_⟩
    obtain ⟨hbelow, hend⟩ := (hload.start cpu).actions hload.live hw hc hactions
    exact ⟨hbelow, (hend.stack_apart hstack).undamaged hinv hw⟩
  refine ⟨hrejects, fun hbad => ?_, ?_, fun image hheld hcr3 => ?_⟩
  · -- there was a page left for the stack
    have hsome : σ₁.pageFreeList ≠ none := fun hc =>
      pageFreeList_of_stack hstack (show (setEntry e entry σ₁).pageFreeList = none from hc)
    exact hload.damages hinv hw hactions hsome hbad
  · rintro hdrs rfl
    exact noneMalformed_iff
  · exact hrejects.trans (loadIcode_contained_iff h hal hheld hcr3 hrun)

/-- What is done for the program of one page. -/
def onePageActions : List LoadAction :=
  (proghdrs (segmentImage 0x1000#32) 0xF0108000#32).flatMap (Proghdr.actions 0xF0108000#32)

/-- It is not malformed. -/
theorem onePage_noneMalformed :
    NoneMalformed (proghdrs (segmentImage 0x1000#32) 0xF0108000#32) := by
  have hph : proghdrs (segmentImage 0x1000#32) 0xF0108000#32 =
      [⟨elfProgLoad, 84#32, 0x800000#32, 4#32, 0x1000#32⟩] := by decide
  rw [hph]
  simp only [NoneMalformed, List.mem_singleton, forall_eq]
  decide

theorem onePage_below : ∀ a ∈ onePageActions, a.Below := noneMalformed_iff.mpr onePage_noneMalformed

theorem onePage_loaded (h : UpperInv smallMachine σ₀)
    (hal : envAlloc smallMachine 0#32 σ₀ = .ok (0, some 0, σ))
    (hload : LoadInv smallMachine 0 O free.length efree σ free ∅) (hlen : 4 ≤ free.length)
    (hcr3 : Mirrors smallMachine σ (pgnum (σ.cpus 0).cr3))
    (hnone : entryOf (σ.mem smallMachine.kernFrame 960) = none) :
    ∃ σ' free' M, loadIcode (imageVariables (segmentImage 0x1000#32)) smallMachine 0 0
        0xF0108000#32 σ = ⟨onePageActions, .ok σ'⟩ ∧
      LoadInv smallMachine 0 O free.length efree σ' free' M := by
  have himage := segmentImage_wellFormed 0x1000#32 (by decide) (by decide) (by decide)
    (by decide) (by decide)
  have hheld := holdsImage_small himage (by decide) (by decide) hnone
  obtain ⟨σ', free', hplace, hload'⟩ :=
    hload.placeImage_enough himage (by rw [segmentImage_pagesNeeded]; exact hlen) 0
  have hresult := loadIcode_refines_new h hal himage.loadable hheld hcr3
  rw [hplace] at hresult
  have hrun : loadIcode (imageVariables (segmentImage 0x1000#32)) smallMachine 0 0 0xF0108000#32 σ =
      ⟨(loadIcode (imageVariables (segmentImage 0x1000#32)) smallMachine 0 0 0xF0108000#32 σ).log,
        .ok σ'⟩ := by rw [← hresult]
  have hlog := loadIcode_log h hal hheld hcr3 (.inl fun a ha => (onePage_below a ha).contained) hrun
  rw [hlog] at hrun
  exact ⟨σ', free', _, hrun, hload'⟩

theorem loadIcode_rejects_small : ∃ σ₀ σ σ', UpperInv smallMachine σ₀ ∧
    envAlloc smallMachine 0#32 σ₀ = .ok (0, some 0, σ) ∧
    loadIcode (imageVariables (segmentImage 0x1000#32)) smallMachine 0 0 0xF0108000#32 σ =
      ⟨onePageActions, .ok σ'⟩ ∧
    NoneMalformed (proghdrs (segmentImage 0x1000#32) 0xF0108000#32) ∧
    (∀ a ∈ onePageActions, a.Below) ∧ Undamaged smallMachine 0 σ σ' := by
  obtain ⟨σ₀, σ, O, efree, free, -, hupper, halloc, -, hload, hlen, hcr3, hnone, -⟩ :=
    smallMachine_envAlloc
  obtain ⟨σ', -, -, hrun, -⟩ :=
    onePage_loaded hupper halloc hload (by rw [hlen]; decide) hcr3 hnone
  exact ⟨_, σ, σ', hupper, halloc, hrun, onePage_noneMalformed,
    (loadIcode_rejects_iff hupper halloc hrun).1.mpr fun a ha => (onePage_below a ha).contained⟩

/-- A segment without a single byte, above `UTOP`. `region_alloc` rounds its bounds and maps a page
for it, so that the new environment gets a page table of its own where `UPAGES` is. -/
theorem loadIcode_acts_above : ∃ σ₀ σ σ', MemInited smallMachine smallMemory σ₀ ∧
    envAlloc smallMachine 0#32 (onKernPgdir σ₀) = .ok (0, some 0, σ) ∧
    loadIcode (imageVariables (emptyImage 0xEF000800#32)) smallMachine 0 0 0xF0108000#32 σ =
      ⟨emptyActions 0xEF000800#32, .ok σ'⟩ ∧
    (¬∀ a ∈ emptyActions 0xEF000800#32, a.Below) ∧ ¬Undamaged smallMachine 0 σ σ' := by
  obtain ⟨σ₀, σ, O, efree, free, hinit, -, halloc, hupper, hload, hlen, hcr3, hnone, -⟩ :=
    smallMachine_envAlloc
  obtain ⟨p, t, q, u, rest, rfl⟩ : ∃ p t q u rest, free = p :: t :: q :: u :: rest := by
    match free, hlen with
    | p :: t :: q :: u :: rest, _ => exact ⟨p, t, q, u, rest, rfl⟩
  have himage : EmptySegment (emptyImage 0xEF000800#32) 0xEF000800#32 :=
    ⟨by decide, by decide, by decide⟩
  have hempty := hupper.dirEntry_upages hload.live
  obtain ⟨_, _, _, hinv, hw⟩ := hupper
  have hown : entryOf (σ.mem (frameAt (σ.envs 0).envPgdir) 960) = none := by
    rw [hw.copy 0 hload.live 960 (by decide) (by decide)]
    exact hnone
  have hread : entryOf (σ.mem (pgnum (σ.cpus 0).cr3) 960) = none := by
    rw [hcr3 960 (by decide) (by decide)]
    exact hnone
  -- `region_alloc` takes `p` for the page and `t` for the page table
  have hload₁ : LoadInv smallMachine 0 O _ efree (lcr3 0 ((σ.envs 0).envPgdir - kernbase) σ)
      (p :: t :: q :: u :: rest) ∅ := hload.of_sameSpaces (.cpus rfl)
  obtain ⟨σ₁, hregion, hinv₁, hslots₁, henvs₁, hentry, hother⟩ :=
    hload₁.mapPage_upper upages (by decide) hempty 0
  have hafter : entryOf (σ₁.mem (frameAt (σ.envs 0).envPgdir) 960) = none := by
    refine (congrArg entryOf (hother 960 (by decide))).trans ?_
    exact hown
  obtain ⟨σ', hstack, hupper'⟩ := hload₁.stackUpper
    (imageValue (emptyImage 0xEF000800#32) 0xF0108018#32 4) hinv₁ hslots₁ henvs₁ 0
  have hrun := himage.loadIcode_eq (hinv.env.pgdir 0 hload.live) hread hown hregion hafter
  rw [hstack] at hrun
  refine ⟨σ₀, σ, σ', hinit, halloc, hrun, by decide, fun hc => ?_⟩
  -- there was nothing at `UPAGES` before
  have hnew := (hc.pdes (some 0) _ hload.dir).2 (pdx upages) (by decide)
  have hkept : σ'.mem (frameAt (σ.envs 0).envPgdir) (pdx upages) =
      σ₁.mem (frameAt (σ.envs 0).envPgdir) (pdx upages) := hupper' _ (by decide)
  rw [← hnew, hkept] at hempty
  cases hempty.symm.trans hentry

end Jos
