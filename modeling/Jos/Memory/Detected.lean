import Jos.Memory.BootAlloc
import Jos.Memory.MemRun

/-!
# What the detected memory sizes are good for

The CMOS reports kilobytes in 16-bit registers, and `npages` and `npages_basemem` are computed
from them without a further check.

*Usable memory.* `page_init` should free base memory and what lies behind the boot allocator
(`FreesUsable`). Its last branch also takes the pages between the end of base memory and the
I/O hole, so it does so exactly when there are none (`pageInit_frees_usable_iff`).

*Address conversions.* `page2pa`, `pa2page`, `page2kva` and `PADDR` should be inverse to each
other on every page (`MemSize.Lossless`). The kernel has 256 MB of addresses above `KERNBASE`,
so they are on the first 65536 pages (`MemSize.lossless_iff`), and `page_init` never keeps a
page above them to itself (`conversions_lossless_iff`).
-/

namespace Jos

variable {σ : State} {kernEnd : Word} {ns : List Word}

/-! ### Usable memory -/

/-- The free list has base memory but for page 0, and everything from `boot_alloc(0)` on; all
other pages are marked as used. -/
def FreesUsable (M : MemSize) (bootFree : Word) (σ : State) : Prop :=
  ∃ free, Chain σ.link σ.pageFreeList free ∧ free.Nodup ∧
    (∀ i, i ∈ free ↔ i < M.npages ∧
      (1 ≤ i ∧ i < M.npagesBasemem ∨ (bootFree - kernbase).toNat ≤ i * pgsize.toNat)) ∧
    (∀ i ∈ free, σ.ref i = 0#16) ∧
    ∀ i < M.npages, i ∉ free → σ.ref i = 1#16 ∧ σ.link i = none

/-- The boot allocator has come to a whole number of pages above `KERNBASE`. -/
theorem bootPosition_sub_kernbase (h : kernbase ≤ bootPosition kernEnd ns) :
    ((bootPosition kernEnd ns - kernbase) / pgsize).toNat * 4096 =
      (bootPosition kernEnd ns - kernbase).toNat ∧
    (bootPosition kernEnd ns - kernbase).toNat < 65536 * 4096 := by
  have hmod := bootPosition_mod kernEnd ns
  have hlt := (bootPosition kernEnd ns).isLt
  have hle := BitVec.le_def.mp h
  rw [show kernbase.toNat = 0xF0000000 from rfl] at hle
  rw [BitVec.toNat_udiv, BitVec.toNat_sub_of_le h, show kernbase.toNat = 0xF0000000 from rfl,
    show pgsize.toNat = 4096 from rfl]
  omega

/-- `page_init` frees exactly the usable memory if and only if base memory reaches up to the I/O
hole, or no page lies between the two. -/
theorem pageInit_frees_usable_iff (M : MemSize)
    (hbase : M.npagesBasemem ≤ (iophysmem / pgsize).toNat)
    (hpos : kernbase + extphysmem ≤ bootPosition kernEnd ns) (hnull : σ.pageFreeList = none) :
    FreesUsable M (bootPosition kernEnd ns) (M.pageInit (bootPosition kernEnd ns) σ) ↔
      M.npagesBasemem = (iophysmem / pgsize).toNat ∨ M.npages ≤ max 1 M.npagesBasemem := by
  have hext := BitVec.le_def.mp hpos
  rw [show (kernbase + extphysmem).toNat = 0xF0100000 by decide] at hext
  have hkern : kernbase ≤ bootPosition kernEnd ns := by
    rw [BitVec.le_def, show kernbase.toNat = 0xF0000000 from rfl]
    omega
  obtain ⟨free, hinit⟩ := M.pageInit_spec (bootPosition kernEnd ns) hnull
  -- the boundaries as page numbers
  obtain ⟨hpages, -⟩ := bootPosition_sub_kernbase hkern
  have hsub := BitVec.toNat_sub_of_le hkern
  rw [show kernbase.toNat = 0xF0000000 from rfl] at hsub
  rw [show (iophysmem / pgsize).toNat = 160 by decide] at hbase ⊢
  have hres (i : ℕ) : M.Reserved (bootPosition kernEnd ns) i ↔
      i = 0 ∨ 160 ≤ i ∧ i * 4096 < (bootPosition kernEnd ns - kernbase).toNat := by
    rw [MemSize.Reserved, show (iophysmem / pgsize).toNat = 160 by decide,
      show (extphysmem / pgsize).toNat = 256 by decide]
    omega
  constructor
  · rintro ⟨free', hchain, -, hmem, -⟩
    obtain rfl := hchain.unique hinit.chain
    -- the first page behind base memory is free, and not usable
    have hgap := (hinit.mem_free (max 1 M.npagesBasemem)).symm.trans
      (hmem (max 1 M.npagesBasemem))
    rw [hres, show pgsize.toNat = 4096 from rfl] at hgap
    omega
  · intro h
    refine ⟨free, hinit.chain, hinit.chain.nodup, ?_, ?_, ?_⟩
    · intro i
      rw [hinit.mem_free, hres, show pgsize.toNat = 4096 from rfl]
      omega
    · intro i hi
      have hi' := (hinit.mem_free i).mp hi
      exact hinit.ref_free i hi'.1 hi'.2
    · intro i hlt hi
      have hr : M.Reserved (bootPosition kernEnd ns) i := by
        by_contra hr
        exact hi ((hinit.mem_free i).mpr ⟨hlt, hr⟩)
      exact (hinit.reserved i hlt hr).symm

/-- With 640 KB of base memory `page_init` does what it should. -/
theorem pageInit_frees_usable_small :
    FreesUsable ⟨1024, 160⟩ (bootPosition 0xF0110000#32 [0x2000#32])
      (MemSize.pageInit ⟨1024, 160⟩ (bootPosition 0xF0110000#32 [0x2000#32]) smallMemory) :=
  (pageInit_frees_usable_iff _ (by decide) (by decide) rfl).mpr (Or.inl (by decide))

/-- With 639 KB of base memory the page behind it is freed, although the firmware keeps it. -/
theorem pageInit_frees_unusable :
    ¬FreesUsable ⟨1024, 159⟩ (bootPosition 0xF0110000#32 [0x2000#32])
      (MemSize.pageInit ⟨1024, 159⟩ (bootPosition 0xF0110000#32 [0x2000#32]) smallMemory) := by
  obtain ⟨free, hinit⟩ := MemSize.pageInit_spec (σ := smallMemory) ⟨1024, 159⟩
    (bootPosition 0xF0110000#32 [0x2000#32]) rfl
  rintro ⟨free', hchain, -, hmem, -⟩
  obtain rfl := hchain.unique hinit.chain
  have hfree : 159 ∈ free' := (hinit.mem_free 159).mpr (by decide)
  exact absurd ((hmem 159).mp hfree) (by decide)

/-! ### Address conversions -/

namespace MemSize

variable {M : MemSize} {i : ℕ}

/-- The conversions of page `i` lose nothing: its physical address is not truncated, and the
page and the kernel address lead back to it. -/
def Lossless (M : MemSize) (i : ℕ) : Prop :=
  (page2pa i).toNat = i * 4096 ∧ M.pa2page (page2pa i) = .ok i ∧
    ∃ kva, M.page2kva i = .ok kva ∧ kernbase ≤ kva ∧ paddr kva = .ok (page2pa i)

/-- A page has a kernel address above `KERNBASE` exactly when it is one of the first 65536. -/
theorem lossless_iff (hi : i < M.npages) : M.Lossless i ↔ i < 65536 := by
  have hkern : kernbase.toNat = 0xF0000000 := rfl
  constructor
  · rintro ⟨hpa, -, kva, hkva, hge, -⟩
    have hlt := (page2pa i).isLt
    -- above 256 MB the sum with `KERNBASE` wraps
    rw [page2kva, kaddr, guard_eq_ok] at hkva
    obtain ⟨-, rfl⟩ := hkva
    rw [BitVec.le_def, BitVec.toNat_add, hkern, hpa] at hge
    omega
  · intro hsmall
    have hpa : (page2pa i).toNat = i * 4096 := page2pa_toNat (by omega)
    have hnum : pgnum (page2pa i) = i := pgnum_page2pa (by omega)
    have hge : kernbase ≤ page2pa i + kernbase :=
      (kernbase_le_page2pa_iff (by omega)).mpr hsmall
    refine ⟨hpa, ?_, page2pa i + kernbase, ?_, hge, ?_⟩
    · rw [pa2page, hnum, if_neg (by omega)]
    · rw [page2kva, kaddr, hnum, if_neg (by omega)]
    · exact paddr_eq_ok.mpr ⟨hge, (BitVec.add_sub_cancel _ _).symm⟩

end MemSize

theorem nvramRead_lt (cmos : ℕ → Byte) (r : ℕ) : (nvramRead cmos r).toNat < 65536 := by
  have hlo := (cmos r).isLt
  have hhi := (cmos (r + 1)).isLt
  rw [nvramRead, BitVec.toNat_or, BitVec.toNat_shiftLeft, BitVec.toNat_setWidth,
    BitVec.toNat_setWidth, Nat.shiftLeft_eq]
  apply Nat.or_lt_two_pow (n := 16) <;> omega

/-- The machine has no more than 256 MB exactly when the register for memory above 16 MB says
so; the other two cannot report as much. -/
theorem npages_le_iff (cmos : ℕ → Byte) :
    (i386DetectMemory cmos).npages ≤ 65536 ↔ (nvramRead cmos nvramExt16lo).toNat ≤ 3840 := by
  have hbase := nvramRead_lt cmos nvramBaselo
  have hext := nvramRead_lt cmos nvramExtlo
  have hext16 := nvramRead_lt cmos nvramExt16lo
  -- the product fits into 32 bits, as `nvram_read` gives 16 of them
  have hmul : (nvramRead cmos nvramExt16lo * 64#32).toNat =
      (nvramRead cmos nvramExt16lo).toNat * 64 := by
    rw [BitVec.toNat_mul, BitVec.toNat_ofNat]
    omega
  have hzero : nvramRead cmos nvramExt16lo * 64#32 ≠ 0#32 ↔
      (nvramRead cmos nvramExt16lo).toNat ≠ 0 := by
    rw [Ne, ← BitVec.toNat_inj, hmul, BitVec.toNat_ofNat]
    omega
  simp only [i386DetectMemory, hzero]
  rw [BitVec.toNat_udiv, show (pgsize / 1024#32).toNat = 4 by decide]
  split
  · rw [BitVec.toNat_add, hmul, show (16#32 * 1024#32).toNat = 16384 by decide]
    omega
  · split
    · rw [BitVec.toNat_add, show (1#32 * 1024#32).toNat = 1024 by decide]
      omega
    · omega

/-- On every page that `page_init` frees the address conversions lose nothing, if and only if
the CMOS reports at most 256 MB. -/
theorem conversions_lossless_iff (cmos : ℕ → Byte) (hpos : kernbase ≤ bootPosition kernEnd ns)
    (hnull : σ.pageFreeList = none) :
    (∀ i, OnFreeList ((i386DetectMemory cmos).pageInit (bootPosition kernEnd ns) σ) i →
      (i386DetectMemory cmos).Lossless i) ↔
    (nvramRead cmos nvramExt16lo).toNat ≤ 3840 := by
  set M := i386DetectMemory cmos with hM
  obtain ⟨free, hinit⟩ := M.pageInit_spec (bootPosition kernEnd ns) hnull
  have hfree (i : ℕ) : OnFreeList (M.pageInit (bootPosition kernEnd ns) σ) i ↔ i ∈ free := by
    constructor
    · rintro ⟨l, hl, hi⟩
      rwa [hl.unique hinit.chain] at hi
    · exact fun hi => ⟨free, hinit.chain, hi⟩
  rw [← npages_le_iff, ← hM]
  constructor
  · intro h
    by_contra hbig
    -- the first page above 256 MB is behind everything that `page_init` reserves
    obtain ⟨hpages, hlt⟩ := bootPosition_sub_kernbase hpos
    have hmem : 65536 ∈ free := by
      rw [hinit.mem_free, MemSize.Reserved, show (iophysmem / pgsize).toNat = 160 by decide,
        show (extphysmem / pgsize).toNat = 256 by decide]
      omega
    have hlossless := (MemSize.lossless_iff (by omega)).mp (h 65536 ((hfree 65536).mpr hmem))
    omega
  · intro hsmall i hi
    have hlt := ((hinit.mem_free i).mp ((hfree i).mp hi)).1
    exact (MemSize.lossless_iff hlt).mpr (by omega)

/-- A machine with 640 KB of base memory and `ext16` times 64 KB above 16 MB. -/
def cmosWith (ext16 : BitVec 16) (r : ℕ) : Byte :=
  if r = nvramBaselo then 0x80#8 else if r = nvramBaselo + 1 then 0x02#8
  else if r = nvramExt16lo then ext16.setWidth 8
  else if r = nvramExt16lo + 1 then (ext16 >>> 8).setWidth 8 else 0#8

/-- On a machine with 128 MB nothing is lost, not even at the last page. -/
theorem conversions_lossless_small :
    OnFreeList ((i386DetectMemory (cmosWith 0x700#16)).pageInit
      (bootPosition 0xF0110000#32 [0x2000#32]) smallMemory) 32767 ∧
    (i386DetectMemory (cmosWith 0x700#16)).Lossless 32767 := by
  obtain ⟨free, hinit⟩ := MemSize.pageInit_spec (σ := smallMemory)
    (i386DetectMemory (cmosWith 0x700#16)) (bootPosition 0xF0110000#32 [0x2000#32]) rfl
  have hfree : OnFreeList ((i386DetectMemory (cmosWith 0x700#16)).pageInit
      (bootPosition 0xF0110000#32 [0x2000#32]) smallMemory) 32767 :=
    ⟨free, hinit.chain, (hinit.mem_free 32767).mpr (by decide)⟩
  exact ⟨hfree, (conversions_lossless_iff (cmosWith 0x700#16) (by decide) rfl).mpr (by decide)
    32767 hfree⟩

/-- On a machine with 512 MB `page_init` frees a page whose kernel address is below
`KERNBASE`. -/
theorem conversions_lose_address :
    OnFreeList ((i386DetectMemory (cmosWith 0x1F00#16)).pageInit
      (bootPosition 0xF0110000#32 [0x2000#32]) smallMemory) 65536 ∧
    (i386DetectMemory (cmosWith 0x1F00#16)).page2kva 65536 = .ok 0#32 ∧
    ¬(i386DetectMemory (cmosWith 0x1F00#16)).Lossless 65536 := by
  obtain ⟨free, hinit⟩ := MemSize.pageInit_spec (σ := smallMemory)
    (i386DetectMemory (cmosWith 0x1F00#16)) (bootPosition 0xF0110000#32 [0x2000#32]) rfl
  refine ⟨⟨free, hinit.chain, (hinit.mem_free 65536).mpr (by decide)⟩, by decide, ?_⟩
  rw [MemSize.lossless_iff (by decide)]
  decide

end Jos
