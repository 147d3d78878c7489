import Jos.Kern.Pmap

/-!
# Where the boot allocator puts things

`mem_init` allocates `pages`, `kern_pgdir` and `envs` one after the other above
the kernel image. On a machine described by a `Boot` none of the 32-bit roundings
wraps, so the three arrays are consecutive (`kernPgdir_toNat`, `envs_toNat`,
`bootFree_frame`), and `page_init` keeps all of them off the free list. The one
fact the rest of the development needs is `reserved_kernFrame`: the kernel's page
directory is never handed out.
-/

namespace Jos

/-! ### Rounding -/

theorem roundDown_pgsize (a : Word) : (roundDown a pgsize).toNat = a.toNat / 4096 * 4096 := by
  have ha := a.isLt
  have hle : (a % pgsize).toNat ≤ a.toNat := by
    rw [BitVec.toNat_umod]
    exact Nat.mod_le _ _
  rw [roundDown, BitVec.toNat_sub_of_le (by rw [BitVec.le_def]; exact hle), BitVec.toNat_umod,
    show pgsize.toNat = 4096 from rfl]
  omega

theorem roundUp_pgsize {a : Word} (h : a.toNat + 4095 < 2 ^ 32) :
    (roundUp a pgsize).toNat = (a.toNat + 4095) / 4096 * 4096 := by
  have hsum : (a + pgsize - 1#32).toNat = a.toNat + 4095 := by
    simp only [BitVec.toNat_sub, BitVec.toNat_add, pgsize, BitVec.toNat_ofNat]
    omega
  rw [roundUp, roundDown_pgsize, hsum]

/-! ### Ranges -/

/-- An address of the range `[va, va+len)`. -/
def InRange (va len a : Word) : Prop := va ≤ a ∧ a.toNat < va.toNat + len.toNat

/-- Two addresses are on one page when they have the same table indices. -/
theorem pgnum_eq_iff {a b : Word} : pgnum a = pgnum b ↔ pdx a = pdx b ∧ ptx a = ptx b := by
  rw [pgnum_split, pgnum_split, Fin.ext_iff, Fin.ext_iff]
  omega

theorem pgnum_add_ofNat {a : Word} {i : ℕ} (h : a.toNat + i < 2 ^ 32) :
    pgnum (a + BitVec.ofNat 32 i) = (a.toNat + i) / 4096 := by
  rw [pgnum_eq, BitVec.toNat_add, BitVec.toNat_ofNat]
  omega

theorem page_zero (begin : Word) : begin + BitVec.ofNat 32 (0 * 4096) = begin := by
  rw [Nat.zero_mul, BitVec.add_zero]

/-- Page `k` behind the first page is page `k + 1`. -/
theorem page_succ (begin : Word) (k : ℕ) : begin + pgsize + BitVec.ofNat 32 (k * 4096) =
    begin + BitVec.ofNat 32 ((k + 1) * 4096) := by
  rw [BitVec.add_assoc, pgsize, ← BitVec.ofNat_add, Nat.add_comm, Nat.succ_mul]

/-- What holds of the first page and of the rest holds of all pages. -/
theorem forall_page_succ {P : Word → Prop} {n : ℕ} {begin : Word} :
    (∀ k < n + 1, P (begin + BitVec.ofNat 32 (k * 4096))) ↔
      P begin ∧ ∀ k < n, P (begin + pgsize + BitVec.ofNat 32 (k * 4096)) := by
  constructor
  · intro h
    constructor
    · have h0 := h 0 (by omega)
      rwa [page_zero] at h0
    · intro k hk
      rw [page_succ]
      exact h (k + 1) (by omega)
  · rintro ⟨h0, hrest⟩ k hk
    cases k with
    | zero => rwa [page_zero]
    | succ k =>
      rw [← page_succ]
      exact hrest k (by omega)

/-! ### Address conversions -/

theorem page2pa_toNat {p : ℕ} (hp : p < 2 ^ 20) : (page2pa p).toNat = p * 4096 := by
  simp only [page2pa, BitVec.toNat_shiftLeft, BitVec.toNat_ofNat, Nat.shiftLeft_eq]
  omega

theorem pgnum_page2pa {p : ℕ} (hp : p < 2 ^ 20) : pgnum (page2pa p) = p := by
  rw [pgnum_eq, page2pa_toNat hp]
  omega

variable {B : Boot}

theorem kaddr_of_lt {pa : Word} (h : pgnum pa < B.npages) : kaddr B pa = .ok (pa + kernbase) :=
  if_neg (Nat.not_le.mpr h)

theorem pa2page_of_lt {pa : Word} (h : pgnum pa < B.npages) : pa2page B pa = .ok (pgnum pa) :=
  if_neg (Nat.not_le.mpr h)

theorem kaddr_eq_ok {pa kva : Word} :
    kaddr B pa = .ok kva ↔ pgnum pa < B.npages ∧ kva = pa + kernbase := by
  rw [kaddr, MemSize.kaddr, guard_eq_ok, not_le]

theorem pa2page_eq_ok {pa : Word} {p : ℕ} :
    pa2page B pa = .ok p ↔ pgnum pa < B.npages ∧ p = pgnum pa := by
  rw [pa2page, MemSize.pa2page, guard_eq_ok, not_le]

theorem page2kva_of_lt {p : ℕ} (h : p < B.npages) :
    page2kva B p = .ok (page2pa p + kernbase) := by
  have hn := B.npages_le
  exact kaddr_of_lt (by rwa [pgnum_page2pa (by omega)])

/-- A word of the form `page2pa(p) | perm` with `perm` below `PGSIZE`. -/
theorem page2pa_or_toNat {p : ℕ} {perm : Word} (hp : p < 2 ^ 20) (hperm : perm.toNat < 4096) :
    (page2pa p ||| perm).toNat = p * 4096 + perm.toNat := by
  rw [BitVec.toNat_or, page2pa_toNat hp, show p * 4096 = 2 ^ 12 * p from Nat.mul_comm p _,
    ← Nat.two_pow_add_eq_or_of_lt (by omega)]

/-- Storing `page2pa(p) | perm | PTE_P` maps page `p` with the permissions `perm`
and present. -/
theorem entryOf_page2pa {p : ℕ} {perm : Word} (hp : p < 2 ^ 20) (hperm : perm.toNat < 4096) :
    entryOf (page2pa p ||| perm ||| pteP) = some (p, perm.setWidth 12 ||| 1#12) := by
  have hor : (perm ||| pteP).toNat < 4096 := by
    rw [BitVec.toNat_or]
    exact Nat.or_lt_two_pow hperm (show pteP.toNat < 2 ^ 12 by decide)
  have hodd : (perm ||| pteP).toNat % 2 = 1 := by
    rw [BitVec.toNat_or, show pteP.toNat = 1 from rfl, Nat.or_mod_two_eq_one]
    exact Or.inr rfl
  rw [BitVec.or_assoc]
  -- the page number and the permissions are the quotient and the remainder by 4096
  have hnat := page2pa_or_toNat hp hor
  have hpres : present (page2pa p ||| (perm ||| pteP)) = true := by
    rw [present_iff, hnat]
    omega
  have hlow : (page2pa p ||| (perm ||| pteP)).setWidth 12 = perm.setWidth 12 ||| 1#12 := by
    rw [← show BitVec.setWidth 12 pteP = 1#12 from rfl, ← BitVec.setWidth_or]
    apply BitVec.eq_of_toNat_eq
    rw [BitVec.toNat_setWidth, BitVec.toNat_setWidth, hnat]
    omega
  rw [entryOf_some hpres, pgnum_pteAddr, hnat, hlow]
  congr 2
  omega

/-! ### The boot-time arrays -/

namespace Boot

variable (B : Boot)

/-- The first address above the kernel image that `boot_alloc` hands out. -/
def imageEnd : ℕ := (B.kernEnd.toNat + 4095) / 4096 * 4096

/-- The bytes `boot_alloc` sets aside for `pages`. -/
def pagesSize : ℕ := (sizeofPageInfo * B.npages + 4095) / 4096 * 4096

theorem imageEnd_add_lt : B.imageEnd + B.pagesSize + 4096 + 126976 < 2 ^ 32 := B.fits_addr

theorem imageEnd_add_le : B.imageEnd + B.pagesSize + 4096 + 126976 ≤ 0xF0000000 + B.npages * 4096 :=
  B.fits_mem

theorem imageEnd_ge : 0xF0100000 ≤ B.imageEnd := by
  have h := B.end_ge
  unfold imageEnd
  omega

theorem npages_pos : 0 < B.npages := by
  have h₁ := B.imageEnd_add_le
  have h₂ := B.imageEnd_ge
  omega

/-- The first call of `boot_alloc` starts behind the image. -/
theorem bootAlloc_first {n : Word} (hn : n ≠ 0#32)
    (hfit : B.imageEnd + n.toNat + 4095 < 2 ^ 32) :
    (bootAlloc B.kernEnd 0#32 n).1.toNat = B.imageEnd ∧
      (bootAlloc B.kernEnd 0#32 n).2.toNat = B.imageEnd + (n.toNat + 4095) / 4096 * 4096 := by
  have hend : (roundUp B.kernEnd pgsize).toNat = B.imageEnd := by
    have hle : B.kernEnd.toNat ≤ B.imageEnd := by unfold imageEnd; omega
    exact roundUp_pgsize (by omega)
  have hsum : (roundUp B.kernEnd pgsize + n).toNat = B.imageEnd + n.toNat := by
    rw [BitVec.toNat_add, hend, Nat.mod_eq_of_lt (by omega)]
  have hmod : B.imageEnd % 4096 = 0 := by unfold imageEnd; omega
  simp only [bootAlloc, if_neg hn, if_true]
  refine ⟨hend, ?_⟩
  rw [roundUp_pgsize (by omega), hsum]
  omega

/-- Every later one continues where the last one ended. -/
theorem bootAlloc_next (nf n : Word) (hnf : nf.toNat % 4096 = 0) (hpos : 0 < nf.toNat)
    (hn : n ≠ 0#32) (hfit : nf.toNat + n.toNat + 4095 < 2 ^ 32) :
    (bootAlloc B.kernEnd nf n).1 = nf ∧
      (bootAlloc B.kernEnd nf n).2.toNat = nf.toNat + (n.toNat + 4095) / 4096 * 4096 := by
  have hne : nf ≠ 0#32 := by
    rintro rfl
    simp at hpos
  have hsum : (nf + n).toNat = nf.toNat + n.toNat := by
    rw [BitVec.toNat_add, Nat.mod_eq_of_lt (by omega)]
  simp only [bootAlloc, if_neg hn, if_neg hne]
  refine ⟨trivial, ?_⟩
  rw [roundUp_pgsize (by omega), hsum]
  omega

theorem imageEnd_mod : B.imageEnd % 4096 = 0 := by
  unfold imageEnd
  omega

theorem pagesSize_mod : B.pagesSize % 4096 = 0 := by
  unfold pagesSize
  omega

theorem allocPages_toNat : B.allocPages.1.toNat = B.imageEnd ∧
    B.allocPages.2.toNat = B.imageEnd + B.pagesSize := by
  have hn := B.npages_le
  have hpos := B.npages_pos
  have hfit := B.imageEnd_add_lt
  have hsize : (BitVec.ofNat 32 (sizeofPageInfo * B.npages)).toNat = sizeofPageInfo * B.npages := by
    rw [BitVec.toNat_ofNat, Nat.mod_eq_of_lt (by unfold sizeofPageInfo; omega)]
  have hle : sizeofPageInfo * B.npages ≤ B.pagesSize := by
    unfold pagesSize
    omega
  have h := B.bootAlloc_first (n := BitVec.ofNat 32 (sizeofPageInfo * B.npages))
    (by
      rw [Ne, ← BitVec.toNat_inj, hsize]
      unfold sizeofPageInfo
      simp only [BitVec.toNat_ofNat]
      omega)
    (by rw [hsize]; omega)
  rwa [hsize] at h

theorem kernPgdir_toNat : B.kernPgdir.toNat = B.imageEnd + B.pagesSize ∧
    B.allocPgdir.2.toNat = B.imageEnd + B.pagesSize + 4096 := by
  have h₁ := B.allocPages_toNat.2
  have hge := B.imageEnd_ge
  have hfit := B.imageEnd_add_lt
  have hm₁ := B.imageEnd_mod
  have hm₂ := B.pagesSize_mod
  obtain ⟨h₂, h₃⟩ := B.bootAlloc_next B.allocPages.2 pgsize (by omega) (by omega)
    (by decide) (by rw [show pgsize.toNat = 4096 from rfl]; omega)
  constructor
  · rw [kernPgdir, allocPgdir, h₂, h₁]
  · rw [allocPgdir, h₃, show pgsize.toNat = 4096 from rfl]
    omega

theorem envs_toNat : B.envs.toNat = B.imageEnd + B.pagesSize + 4096 ∧
    B.bootFree.toNat = B.imageEnd + B.pagesSize + 4096 + 126976 := by
  have h₁ := B.kernPgdir_toNat.2
  have hge := B.imageEnd_ge
  have hfit := B.imageEnd_add_lt
  have hm₁ := B.imageEnd_mod
  have hm₂ := B.pagesSize_mod
  have hsize : (BitVec.ofNat 32 (sizeofEnv * nenv)).toNat = 126976 := by
    rw [BitVec.toNat_ofNat, sizeofEnv, nenv]
  obtain ⟨h₂, h₃⟩ := B.bootAlloc_next B.allocPgdir.2
    (BitVec.ofNat 32 (sizeofEnv * nenv)) (by omega) (by omega)
    (by rw [Ne, ← BitVec.toNat_inj, hsize]; simp) (by rw [hsize]; omega)
  have h₄ : B.allocEnvs.2.toNat = B.imageEnd + B.pagesSize + 4096 + 126976 := by
    rw [allocEnvs, h₃, hsize]
    omega
  constructor
  · rw [envs, allocEnvs, h₂, h₁]
  · -- `boot_alloc(0)` returns `nextfree`, which is not null any more
    have hne : B.allocEnvs.2 ≠ 0#32 := by
      intro h0
      rw [h0, BitVec.toNat_ofNat] at h₄
      omega
    rw [bootFree, bootAlloc]
    simpa [hne] using h₄

/-! ### The pages `page_init` reserves -/

/-- `page_init` leaves page `i` off the free list. -/
def Reserved (i : ℕ) : Prop :=
  i = 0 ∨ ¬(1 ≤ i ∧ i < B.npagesBasemem) ∧
    ((iophysmem / pgsize).toNat ≤ i ∧ i < (extphysmem / pgsize).toNat ∨
      (extphysmem / pgsize).toNat ≤ i ∧ i < ((B.bootFree - kernbase) / pgsize).toNat)

instance : DecidablePred B.Reserved := fun i => by
  unfold Reserved
  infer_instance

/-- A page of memory that the allocator manages. -/
def Managed (i : ℕ) : Prop := i < B.npages ∧ ¬B.Reserved i

instance : DecidablePred B.Managed := fun i => by
  unfold Managed
  infer_instance

/-- The first frame above the boot-time arrays: one page of `kern_pgdir` and 31 of
`envs`. -/
def bootFrame : ℕ := B.kernFrame + 32

theorem frameAt_of_ge {kva : Word} (h : 0xF0000000 ≤ kva.toNat) :
    frameAt kva = (kva.toNat - 0xF0000000) / 4096 := by
  have hk : kernbase.toNat = 0xF0000000 := rfl
  rw [frameAt, pgnum_eq, BitVec.toNat_sub_of_le (by rw [BitVec.le_def, hk]; exact h), hk]

theorem kernFrame_eq : B.kernFrame = (B.imageEnd + B.pagesSize - 0xF0000000) / 4096 := by
  have h := B.kernPgdir_toNat.1
  have hge := B.imageEnd_ge
  rw [kernFrame, frameAt_of_ge (by omega), h]

theorem bootFree_frame : ((B.bootFree - kernbase) / pgsize).toNat = B.bootFrame := by
  have h := B.envs_toNat.2
  have hge := B.imageEnd_ge
  have hm₁ := B.imageEnd_mod
  have hm₂ := B.pagesSize_mod
  have hk : kernbase.toNat = 0xF0000000 := rfl
  have hle : kernbase ≤ B.bootFree := by
    rw [BitVec.le_def, hk]
    omega
  calc ((B.bootFree - kernbase) / pgsize).toNat
      = (B.bootFree.toNat - 0xF0000000) / 4096 := by
        rw [BitVec.toNat_udiv, BitVec.toNat_sub_of_le hle, hk]
        rfl
    _ = (B.imageEnd + B.pagesSize - 0xF0000000) / 4096 + 32 := by
        rw [h]
        omega
    _ = B.bootFrame := by rw [bootFrame, kernFrame_eq]

theorem kernFrame_ge : 256 ≤ B.kernFrame := by
  have hge := B.imageEnd_ge
  rw [kernFrame_eq]
  omega

theorem bootFrame_le : B.bootFrame ≤ B.npages := by
  have hle := B.imageEnd_add_le
  have hge := B.imageEnd_ge
  rw [bootFrame, kernFrame_eq]
  omega

/-- Page 0, the I/O hole, and everything up to the end of the boot-time arrays: base
memory ends below the hole, so its branch takes nothing out of these. -/
theorem reserved_iff (i : ℕ) : B.Reserved i ↔ i = 0 ∨ 160 ≤ i ∧ i < B.bootFrame := by
  have hb := B.basemem_le
  have hk := B.kernFrame_ge
  have hf : B.bootFrame = B.kernFrame + 32 := rfl
  rw [Reserved, bootFree_frame, show (iophysmem / pgsize).toNat = 160 by decide,
    show (extphysmem / pgsize).toNat = 256 by decide]
  omega

theorem reserved_kernFrame : B.Reserved B.kernFrame := by
  have hk := B.kernFrame_ge
  have hf : B.bootFrame = B.kernFrame + 32 := rfl
  rw [reserved_iff]
  omega

theorem kernFrame_lt : B.kernFrame < B.npages := by
  have h := B.bootFrame_le
  have hf : B.bootFrame = B.kernFrame + 32 := rfl
  omega

variable {B}

/-- The kernel's page directory is not managed. -/
theorem Managed.ne_kernFrame {i : ℕ} (h : B.Managed i) : i ≠ B.kernFrame :=
  fun he => h.2 (he ▸ B.reserved_kernFrame)

theorem Managed.lt_pow {i : ℕ} (h : B.Managed i) : i < 2 ^ 20 :=
  Nat.lt_of_lt_of_le h.1 B.npages_le

/-- The kernel address of a page reaches its frame. -/
theorem Managed.frameAt_kva {i : ℕ} (h : B.Managed i) : frameAt (page2pa i + kernbase) = i := by
  rw [frameAt_add_kernbase, pgnum_page2pa h.lt_pow]

end Boot

end Jos
