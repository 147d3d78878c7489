import Jos.Memory.LoadRefine

/-!
# Programs with an empty segment

A program header for a segment without a byte. `region_alloc` rounds its bounds, so that a page is
mapped for it unless it begins at one. If that page is above `UTOP`, where the environment has no
page table, one is made and entered in its directory, and `load_icode` returns as usual.
-/

namespace Jos

variable {B : Boot} {σ σ' σ₁ : State} {cpu c : ℕ} {e : Fin nenv} {free : List ℕ}
  {efree : List (Fin nenv)} {O : Set ℕ} {M : Finset ℕ} {va : Word} {t : ℕ} {held : ℕ → ℕ}

/-! ### A page above `UTOP` -/

/-- An entry at or above `UTOP` in the directory of an environment is no slot. -/
theorem slots_setWord_upper {d : ℕ} (h : Separated B σ) (hd : dirFrame B σ (some e) = some d)
    {k : Fin 1024} (hk : 955 ≤ k.val) (w : Word) : slots B (σ.setWord d k w) = slots B σ := by
  refine slots_congr (dirFrame_setWord d k w) (fun a d' hd' i hi => ?_) fun a d' i u hd' hi hu => ?_
  · by_cases hdd : d' = d
    · subst hdd
      obtain rfl := h.dirFrame_inj hd hd'
      have hne : i ≠ k := by
        rintro rfl
        exact absurd (show i.val < 955 from hi) (by omega)
      rw [setWord_mem_self, Function.update_of_ne hne]
    · rw [setWord_mem_of_ne hdd]
  · -- the directory is no page table below `UTOP`
    refine setWord_mem_of_ne (fun hc => ?_) _ _
    have href := Separated.slotRef_pde hd' (tracked_of_lt hi a) hu
    rw [hc] at href
    exact h.dirFrame_ne hd (by simp) href

/-- `page_insert` enters a page table above `UTOP` where there is none. -/
theorem pageInsert_upper {pgdir : Word} {pp : ℕ} (h : PageInv B σ held (t :: free))
    (hd : dirFrame B σ (some e) = some (frameAt pgdir)) (hi : 955 ≤ (pdx va).val)
    (hnone : entryOf (σ.mem (frameAt pgdir) (pdx va)) = none) (hm : B.Managed pp)
    (hpp : pp ∉ free) (perm : Word) (cpu : ℕ) :
    ∃ σ', pageInsert B cpu pgdir pp va perm σ = .ok (0, σ') ∧
      PageInv B σ' (held + Pi.single t 1 + Pi.single pp 1) free ∧ slots B σ' = slots B σ ∧
      σ'.envs = σ.envs ∧ entryOf (σ'.mem (frameAt pgdir) (pdx va)) = some (t, tablePerm) ∧
      ∀ k, k ≠ pdx va → σ'.mem (frameAt pgdir) k = σ.mem (frameAt pgdir) k := by
  have htm : B.Managed t := h.free_managed t List.mem_cons_self
  have hdt : t ≠ frameAt pgdir := h.dirFrame_ne_of_mem hd List.mem_cons_self
  obtain ⟨σ₁, kva, hkva, hwalk, hinv₁, hslots₁, hkeeps₁, hzero, hother⟩ := pgdirWalk_create h hnone
  have hd₁ : dirFrame B σ₁ (some e) = some (frameAt pgdir) := by rw [hkeeps₁.dirFrame, hd]
  set w := page2pa t ||| pteP ||| pteU ||| pteW with hw
  -- the entry in the directory is no slot, so both references stay in hand
  have hslots₂ := slots_setWord_upper hinv₁.separated hd₁ hi w
  set σ₂ := σ₁.setWord (frameAt pgdir) (pdx va) w with hσ₂
  have hinv₂ : PageInv B σ₂ (held + Pi.single t 1) free := by
    unfold PageInv
    rw [slotRef_eq_of_slots hslots₂]
    exact hinv₁
  obtain ⟨hinv₃, hsame₃⟩ := incRef_spec hinv₂ hm hpp
  have hslots₃ : slots B (σ₂.incRef pp) = slots B σ := by rw [hsame₃.slots, hslots₂, hslots₁]
  have hunref (s : Slot) : slotRef B (σ₂.incRef pp) s ≠ some t := by
    rw [slotRef_eq_of_slots hslots₃]
    exact h.slot_ne_of_mem List.mem_cons_self s
  set σ₃ := (σ₂.incRef pp).setWord t (ptx va) (page2pa pp ||| perm ||| pteP) with hσ₃
  obtain ⟨hslots₄, hkeeps₄⟩ : slots B σ₃ = slots B (σ₂.incRef pp) ∧ Keeps B (σ₂.incRef pp) σ₃ :=
    setFrame_unref hunref htm _
  have hpte : ¬present ((σ₂.incRef pp).load (kva, ptx va)) = true := by
    change ¬present ((σ₂.incRef pp).mem (frameAt kva) (ptx va)) = true
    rw [hkva, hsame₃.mem, hσ₂, setWord_mem_of_ne hdt, hzero]
    exact not_present_of_entryOf entryOf_zero
  have hdir : σ₃.mem (frameAt pgdir) = Function.update (σ.mem (frameAt pgdir)) (pdx va) w := by
    rw [hσ₃, setWord_mem_of_ne hdt.symm, hsame₃.mem, hσ₂, setWord_mem_self, hother _ hdt.symm]
  refine ⟨σ₃, ?_, ?_, by rw [hslots₄, hslots₃], ?_, ?_, fun k hk => ?_⟩
  · simp only [pageInsert, hwalk, ok_bind, pageInsertAt, if_neg hpte]
    rw [hσ₃, ← hkva]
    rfl
  · unfold PageInv
    rw [slotRef_eq_of_slots hslots₄]
    exact hinv₃
  · rw [hkeeps₄.envs, hsame₃.keeps.envs]
    exact hkeeps₁.envs
  · rw [hdir, Function.update_self]
    exact entryOf_table htm.lt_pow
  · rw [hdir, Function.update_of_ne hk]

/-- `region_alloc` maps a page above `UTOP` where there is no page table. -/
theorem LoadInv.mapPage_upper {p : ℕ} (h : LoadInv B e O c efree σ (p :: t :: free) M) (va : Word)
    (hi : 955 ≤ (pdx va).val)
    (hnone : entryOf (σ.mem (frameAt (σ.envs e).envPgdir) (pdx va)) = none) (cpu : ℕ) :
    ∃ σ', Jos.regionAllocLoop B cpu e 1 va σ = .ok σ' ∧
      PageInv B σ' (0 + Pi.single t 1 + Pi.single p 1) free ∧ slots B σ' = slots B σ ∧
      σ'.envs = σ.envs ∧
      entryOf (σ'.mem (frameAt (σ.envs e).envPgdir) (pdx va)) = some (t, tablePerm) ∧
      ∀ k, k ≠ pdx va →
        σ'.mem (frameAt (σ.envs e).envPgdir) k = σ.mem (frameAt (σ.envs e).envPgdir) k := by
  have hp : p ∉ t :: free := (List.nodup_cons.mp h.page.chain.nodup).1
  have hpm : B.Managed p := h.page.free_managed p List.mem_cons_self
  obtain ⟨σ₁, halloc, hinv₁, hslots₁, hkeeps₁, -⟩ := pageAlloc_spec h.page 0#32
  have hnone₁ : entryOf (σ₁.mem (frameAt (σ.envs e).envPgdir) (pdx va)) = none := by
    rwa [pageAlloc_zero_mem halloc]
  have hd₁ : dirFrame B σ₁ (some e) = some (frameAt (σ.envs e).envPgdir) := by
    rw [hkeeps₁.dirFrame, h.dir]
  obtain ⟨σ₂, hinsert, hinv₂, hslots₂, henvs₂, hentry, hother⟩ :=
    pageInsert_upper hinv₁ hd₁ hi hnone₁ hpm (fun hc => hp (List.mem_cons_of_mem _ hc))
      (pteW ||| pteU) cpu
  rw [pageAlloc_zero_mem halloc] at hother
  refine ⟨σ₂, ?_, hinv₂, by rw [hslots₂, hslots₁], by rw [henvs₂, hkeeps₁.envs], hentry, hother⟩
  simp only [Jos.regionAllocLoop, halloc, ok_bind, hkeeps₁.envs, hinsert]

/-- Two free pages may be taken without coming near the capacity of a counter. -/
theorem LoadInv.refs_add_two {p : ℕ} (h : LoadInv B e O c efree σ free M) (hp : p ∈ free)
    (ht : t ∈ free) (r : ℕ) :
    refs B σ r + (0 + Pi.single t 1 + Pi.single p 1 : ℕ → ℕ) r ≤ 65535 := by
  have hfree (x : ℕ) (hx : x ∈ free) : refs B σ x = 0 :=
    refCount_eq_zero.mpr (h.page.slot_ne_of_mem hx)
  simp only [Pi.add_apply, Pi.zero_apply, Pi.single_apply]
  by_cases hr : r = t ∨ r = p
  · have hzero : refs B σ r = 0 := by
      rcases hr with rfl | rfl
      · exact hfree _ ht
      · exact hfree _ hp
    rw [hzero]
    split <;> split <;> decide
  · obtain ⟨hrt, hrp⟩ := not_or.mp hr
    have hle := h.bound r
    rw [if_neg hrt, if_neg hrp]
    omega

/-- The stack is mapped all the same. -/
theorem PageInv.stackAlloc {q u : ℕ} (h : PageInv B σ held (q :: u :: free)) {pgdir : Word}
    (hpgdir : (σ.envs e).envPgdir = pgdir) (hd : dirFrame B σ (some e) = some (frameAt pgdir))
    (hnone : entryOf (σ.mem (frameAt pgdir) (pdx (ustacktop - pgsize))) = none)
    (hbound : ∀ p, refs B σ p + held p ≤ 65535) (cpu : ℕ) :
    ∃ σ', regionAlloc B cpu e (ustacktop - pgsize) pgsize σ = .ok σ' ∧
      ∀ k : Fin 1024, 955 ≤ k.val → σ'.mem (frameAt pgdir) k = σ.mem (frameAt pgdir) k := by
  -- `q` becomes the page of the stack and `u` its page table
  have hqm : B.Managed q := h.free_managed q List.mem_cons_self
  have hq : q ∉ u :: free := (List.nodup_cons.mp h.chain.nodup).1
  have hperm : (pteW ||| pteU).toNat < 4096 := by decide
  obtain ⟨σ₁, halloc, hinv₁, hslots₁, hkeeps₁, -⟩ := pageAlloc_spec h 0#32
  have hd₁ : dirFrame B σ₁ (some e) = some (frameAt pgdir) := by rw [hkeeps₁.dirFrame, hd]
  have hnone₁ : entryOf (σ₁.mem (frameAt pgdir) (pdx (ustacktop - pgsize))) = none := by
    rwa [pageAlloc_zero_mem halloc]
  have hbound₁ (p : ℕ) : refs B σ₁ p + held p ≤ 65535 := by
    rw [refs_eq_of_slots hslots₁]
    exact hbound p
  obtain ⟨σ₂, hinsert, -, hkeeps₂, -⟩ :=
    pageInsert_alloc hinv₁ hd₁ (by decide) hnone₁ hqm hq hperm hbound₁ cpu
  refine ⟨σ₂, ?_, (hkeeps₁.trans hkeeps₂).upper _ _ hd⟩
  rw [regionAlloc_stack]
  simp only [Jos.regionAllocLoop, halloc, ok_bind, hkeeps₁.envs, hpgdir, hinsert]

/-- The end of `load_icode`, when a page and a page table have been taken for an address above
`UTOP`. -/
theorem LoadInv.stackUpper {p q u : ℕ} {pa : Word}
    (h : LoadInv B e O c efree σ (p :: t :: q :: u :: free) ∅) (entry : Word)
    (hinv : PageInv B σ₁ (0 + Pi.single t 1 + Pi.single p 1) (q :: u :: free))
    (hslots : slots B σ₁ = slots B σ) (henvs : σ₁.envs = σ.envs) (cpu : ℕ) :
    ∃ σ', Jos.regionAlloc B cpu e (ustacktop - pgsize) pgsize
        (lcr3 cpu pa (setEntry e entry σ₁)) = .ok σ' ∧ ∀ k : Fin 1024, 955 ≤ k.val →
      σ'.mem (frameAt (σ.envs e).envPgdir) k = σ₁.mem (frameAt (σ.envs e).envPgdir) k := by
  have hlive₁ : Live σ₁ e := by
    rw [Live, henvs]
    exact h.live
  -- for the stack it matters only that no slot of `e` is in use
  have hsame : SameSpaces σ₁ (lcr3 cpu pa (setEntry e entry σ₁)) :=
    sameSpaces_setEntry hlive₁ cpu entry pa
  set σ₂ := lcr3 cpu pa (setEntry e entry σ₁) with hσ₂
  have hinv₂ : PageInv B σ₂ (0 + Pi.single t 1 + Pi.single p 1) (q :: u :: free) := by
    unfold PageInv
    rw [slotRef_eq_of_slots hsame.slots]
    exact hinv
  have hd₂ : dirFrame B σ₂ (some e) = some (frameAt (σ.envs e).envPgdir) := by
    rw [hsame.dirFrame, dirFrame_congr henvs]
    exact h.dir
  have hpgdir₂ : (σ₂.envs e).envPgdir = (σ.envs e).envPgdir := by
    rw [hsame.pgdir, henvs]
  have hslots₂ : slots B σ₂ = slots B σ := by rw [hsame.slots, hslots]
  have hnone₂ : entryOf (σ₂.mem (frameAt (σ.envs e).envPgdir) (pdx (ustacktop - pgsize))) =
      none := by
    have hpde := h.loaded.pde (pdx (ustacktop - pgsize)) (by decide)
    rw [if_neg (by simp [tablesOf]), Option.map_eq_none_iff, ← hslots₂,
      slots_pde hd₂ (tracked_of_lt (by decide) _)] at hpde
    exact hpde
  have hbound₂ (r : ℕ) : refs B σ₂ r + (0 + Pi.single t 1 + Pi.single p 1 : ℕ → ℕ) r ≤ 65535 := by
    rw [refs_eq_of_slots hslots₂]
    exact h.refs_add_two (by simp) (by simp) r
  obtain ⟨σ', hstack, hupper⟩ := hinv₂.stackAlloc hpgdir₂ hd₂ hnone₂ hbound₂ cpu
  exact ⟨σ', hstack, fun k hk => (hupper k hk).trans (by rw [hsame.mem])⟩

/-! ### The program -/

/-- The bytes of a program of less than a page. -/
theorem loadByte_small {image : Word → Byte} {k : ℕ} (hk : k < 4096)
    (hnone : entryOf (σ.mem (pgnum (σ.cpus cpu).cr3) 960) = none) :
    loadByte (imageVariables image) cpu (0xF0108000#32 + BitVec.ofNat 32 k) σ =
      .ok (image (0xF0108000#32 + BitVec.ofNat 32 k)) := by
  rw [loadByte, kernelAccess_small hk hnone]
  exact congrArg Except.ok (kernelByte_small image hk σ)

theorem loadWord_small {image : Word → Byte} (k : ℕ) (hk : k + 4 ≤ 4096)
    (hnone : entryOf (σ.mem (pgnum (σ.cpus cpu).cr3) 960) = none) :
    loadWord (imageVariables image) cpu (0xF0108000#32 + BitVec.ofNat 32 k) σ =
      .ok (imageValue image (0xF0108000#32 + BitVec.ofNat 32 k) 4) := by
  refine loadWord_of_bytes fun j hj => ?_
  rw [BitVec.add_assoc, ← BitVec.ofNat_add]
  exact loadByte_small (by omega) hnone

/-- A program with one segment, which has no byte. `region_alloc` maps a page for it all the same,
unless it begins at one. -/
structure EmptySegment (image : Word → Byte) (va : Word) : Prop where
  phoff : elfPhoff image 0xF0108000#32 = 52#32
  phnum : elfPhnum image 0xF0108000#32 = 1
  header : proghdrAt image 0xF0108034#32 = ⟨elfProgLoad, 0#32, va, 0#32, 0#32⟩

/-- Its actions. -/
def emptyActions (va : Word) : List LoadAction :=
  Proghdr.actions 0xF0108000#32 ⟨elfProgLoad, 0#32, va, 0#32, 0#32⟩

namespace EmptySegment

variable {image : Word → Byte} (himage : EmptySegment image va)
include himage

/-- The header, in every state in which it can be read. -/
theorem loadHeader (hnone : entryOf (σ.mem (pgnum (σ.cpus cpu).cr3) 960) = none) :
    loadWord (imageVariables image) cpu 0xF0108034#32 σ = .ok elfProgLoad ∧
    loadWord (imageVariables image) cpu (0xF0108034#32 + 4#32) σ = .ok 0#32 ∧
    loadWord (imageVariables image) cpu (0xF0108034#32 + 8#32) σ = .ok va ∧
    loadWord (imageVariables image) cpu (0xF0108034#32 + 16#32) σ = .ok 0#32 ∧
    loadWord (imageVariables image) cpu (0xF0108034#32 + 20#32) σ = .ok 0#32 := by
  obtain ⟨htype, hoffset, hva, hfilesz, hmemsz⟩ := Proghdr.mk.inj himage.header
  refine ⟨?_, ?_, ?_, ?_, ?_⟩
  · rw [← htype]
    exact loadWord_small 52 (by decide) hnone
  · rw [← hoffset]
    exact loadWord_small 56 (by decide) hnone
  · rw [← hva]
    exact loadWord_small 60 (by decide) hnone
  · rw [← hfilesz]
    exact loadWord_small 68 (by decide) hnone
  · rw [← hmemsz]
    exact loadWord_small 72 (by decide) hnone

/-- What is done for the header. -/
theorem loadSegment_eq (hnone : entryOf (σ.mem (pgnum (σ.cpus cpu).cr3) 960) = none)
    (hregion : regionAlloc B cpu e va 0#32 σ = .ok σ₁)
    (hafter : entryOf (σ₁.mem (pgnum (σ₁.cpus cpu).cr3) 960) = none) :
    loadSegment (imageVariables image) B cpu e 0xF0108000#32 0xF0108034#32 σ =
      ⟨emptyActions va, .ok σ₁⟩ := by
  obtain ⟨htype, -, hva, -, hmemsz⟩ := himage.loadHeader hnone
  obtain ⟨-, hoffset, hva', hfilesz, hmemsz'⟩ := himage.loadHeader hafter
  have hact : Load.act (imageVariables image) B cpu e (.region va 0#32) σ =
      ⟨[.region va 0#32], .ok σ₁⟩ := by
    rw [Load.act, LoadAction.exec, hregion]
  simp only [loadSegment, htype, Load.quiet_ok_bind, ↓reduceIte, hmemsz, hva, hact,
    Logged.mk_bind, hfilesz, hoffset, hva']
  -- nothing is copied and nothing is cleared
  have hcopy : Load.act (imageVariables image) B cpu e (.copy va (0xF0108000#32 + 0#32) 0#32) σ₁ =
      ⟨[.copy va (0xF0108000#32 + 0#32) 0#32], .ok σ₁⟩ := by
    rw [Load.act, LoadAction.exec, memmove]
    split <;> rfl
  rw [hcopy]
  simp only [Logged.mk_bind, hfilesz, hmemsz', hva', Load.quiet_ok_bind]
  rfl

/-- The whole of `load_icode`. -/
theorem loadIcode_eq (hhigh : kernbase ≤ (σ.envs e).envPgdir)
    (hcr3 : entryOf (σ.mem (pgnum (σ.cpus cpu).cr3) 960) = none)
    (hdir : entryOf (σ.mem (frameAt (σ.envs e).envPgdir) 960) = none)
    (hregion : regionAlloc B cpu e va 0#32 (lcr3 cpu ((σ.envs e).envPgdir - kernbase) σ) = .ok σ₁)
    (hafter : entryOf (σ₁.mem (frameAt (σ.envs e).envPgdir) 960) = none) :
    loadIcode (imageVariables image) B cpu e 0xF0108000#32 σ = ⟨emptyActions va,
      regionAlloc B cpu e (ustacktop - pgsize) pgsize (lcr3 cpu (B.kernPgdir - kernbase)
        (setEntry e (imageValue image 0xF0108018#32 4) σ₁))⟩ := by
  have hcr3' : pgnum ((lcr3 cpu ((σ.envs e).envPgdir - kernbase) σ).cpus cpu).cr3 =
      frameAt (σ.envs e).envPgdir := by
    rw [lcr3, setCpu_cpus]
    rfl
  obtain ⟨-, hframe⟩ := regionAllocLoop_frame hregion
  have hafter' : entryOf (σ₁.mem (pgnum (σ₁.cpus cpu).cr3) 960) = none := by
    rw [hframe, hcr3', hafter]
  have hphoff : loadWord (imageVariables image) cpu (0xF0108000#32 + 28#32) σ = .ok 52#32 := by
    rw [← himage.phoff]
    exact loadWord_small 28 (by decide) hcr3
  have hphnum : loadValue (imageVariables image) cpu 2 (0xF0108000#32 + 44#32) σ = .ok 1 := by
    rw [← himage.phnum, elfPhnum, imageValue_two]
    refine loadValue_of_bytes fun j hj => ?_
    rw [show (0xF0108000#32 + 44#32 : Word) = 0xF0108000#32 + BitVec.ofNat 32 44 from rfl,
      BitVec.add_assoc, ← BitVec.ofNat_add]
    exact loadByte_small (by omega) hcr3
  have hentry : loadWord (imageVariables image) cpu (0xF0108000#32 + 24#32) σ₁ =
      .ok (imageValue image 0xF0108018#32 4) := loadWord_small 24 (by decide) hafter'
  have hsegment := himage.loadSegment_eq (e := e) (by rw [hcr3']; exact hdir) hregion hafter'
  have hsegments : loadSegments (imageVariables image) B cpu e 0xF0108000#32
      (headerCount (0xF0108000#32 + 52#32) 1) (0xF0108000#32 + 52#32)
      (lcr3 cpu ((σ.envs e).envPgdir - kernbase) σ) = ⟨emptyActions va, .ok σ₁⟩ := by
    rw [show headerCount (0xF0108000#32 + 52#32) 1 = 1 by decide, loadSegments,
      show (0xF0108000#32 + 52#32 : Word) = 0xF0108034#32 by decide, hsegment]
    rfl
  simp only [loadIcode, hphoff, hphnum, Load.quiet_ok_bind, paddr_eq_ok.mpr ⟨hhigh, rfl⟩,
    hsegments, Logged.mk_bind, hentry, paddr_eq_ok.mpr ⟨kernbase_le_kernPgdir B, rfl⟩]
  rw [Load.quiet, List.append_nil]

end EmptySegment

/-- The words of an ELF image with a program header for an empty segment at `va`. -/
def emptyWord (va : Word) : ℕ → Word
  | 0 => 0x464C457F#32 -- the magic number
  | 7 => 52#32 -- `e_phoff`
  | 11 => 1#32 -- `e_phnum`
  | 13 => elfProgLoad
  | 15 => va -- `p_va`
  | _ => 0#32

/-- Where the kernel has it. -/
def emptyImage (va a : Word) : Byte :=
  let offset := (a - 0xF0108000#32).toNat
  (emptyWord va (offset / 4) >>> (8 * (offset % 4))).setWidth 8

end Jos
