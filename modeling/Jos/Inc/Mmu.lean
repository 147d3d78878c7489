import Mathlib.Data.BitVec
import Mathlib.Data.Fintype.Basic

/-!
# Words, address macros and the memory layout

The constants and macros of `inc/types.h`, `inc/mmu.h`, `inc/memlayout.h`,
`inc/env.h` and `inc/error.h` that the kernel's memory management and
environment code uses. All C integers, pointers and physical addresses of this
machine are 32 bits wide and wrap, so they are `Word`s; the macros that extract a
table index return a `Fin 1024`, the type of the index they compute.
-/

namespace Jos

/-- A 32-bit machine word: `uint32_t`, `int32_t`, `uintptr_t`, `physaddr_t`, or a
pointer. -/
abbrev Word := BitVec 32

/-- A table of the processor is not empty: it has an entry 0. -/
instance neZeroEntries : NeZero 1024 := ⟨by decide⟩

/-! ### `inc/types.h` -/

/-- `ROUNDDOWN(a, n)`. -/
def roundDown (a n : Word) : Word := a - a % n

/-- `ROUNDUP(a, n)`, which adds before it rounds and so may wrap. -/
def roundUp (a n : Word) : Word := roundDown (a + n - 1#32) n

/-! ### `inc/mmu.h` -/

/-- `PGSIZE`. -/
def pgsize : Word := 4096#32

/-- `NPDENTRIES`, the entries of a page directory. -/
def npdentries : ℕ := 1024

/-- `PTSIZE`, the bytes mapped by one page directory entry. -/
def ptsize : Word := 0x400000#32

/-- `PGNUM(la)`: the page number field of an address. -/
def pgnum (la : Word) : ℕ := (la >>> 12).toNat

/-- `PDX(la)`: the page directory index. -/
def pdx (la : Word) : Fin 1024 :=
  ⟨(la >>> 22 &&& 0x3FF#32).toNat, by
    rw [BitVec.toNat_and]
    exact Nat.lt_of_le_of_lt Nat.and_le_right (by decide)⟩

/-- `PTX(la)`: the page table index. -/
def ptx (la : Word) : Fin 1024 :=
  ⟨(la >>> 12 &&& 0x3FF#32).toNat, by
    rw [BitVec.toNat_and]
    exact Nat.lt_of_le_of_lt Nat.and_le_right (by decide)⟩

/-- `PGOFF(la)`: the offset within the page. -/
def pgoff (la : Word) : ℕ := (la &&& 0xFFF#32).toNat

/-- `PGADDR(d, t, o)`: the linear address with these indices and offset. -/
def pgaddr (d t : Fin 1024) (o : Word) : Word :=
  BitVec.ofNat 32 d.val <<< 22 ||| BitVec.ofNat 32 t.val <<< 12 ||| o

/-- `PTE_P`: present. -/
def pteP : Word := 0x001#32
/-- `PTE_W`: writeable. -/
def pteW : Word := 0x002#32
/-- `PTE_U`: user. -/
def pteU : Word := 0x004#32

/-- `PTE_ADDR(pte)`: the address in a page table or page directory entry. -/
def pteAddr (pte : Word) : Word := pte &&& ~~~0xFFF#32

/-- `entry & PTE_P`, as a C condition. -/
def present (entry : Word) : Bool := entry &&& pteP != 0#32

/-! ### `inc/memlayout.h` -/

/-- `KERNBASE`: all physical memory is mapped at this address. -/
def kernbase : Word := 0xF0000000#32
/-- `IOPHYSMEM`: the I/O hole starts here. -/
def iophysmem : Word := 0x0A0000#32
/-- `EXTPHYSMEM`: the I/O hole ends here. -/
def extphysmem : Word := 0x100000#32
/-- `MPENTRY_PADDR`: where the entry code of the other processors goes. -/
def mpentryPaddr : Word := 0x7000#32
/-- `MMIOLIM`. -/
def mmiolim : Word := kernbase - ptsize
/-- `MMIOBASE`. -/
def mmiobase : Word := mmiolim - ptsize
/-- `ULIM`: no user access at or above it. -/
def ulim : Word := mmiobase
/-- `UVPT`: the user's read-only view of the page tables. -/
def uvpt : Word := ulim - ptsize
/-- `UPAGES`: the user's read-only view of `pages`. -/
def upages : Word := uvpt - ptsize
/-- `UENVS`: the user's read-only view of `envs`. -/
def uenvs : Word := upages - ptsize
/-- `UTOP`: the user manages its own address space below it. -/
def utop : Word := uenvs
/-- `USTACKTOP`. -/
def ustacktop : Word := utop - 2#32 * pgsize

/-- `GD_UT`, the user text segment selector. -/
def gdUT : BitVec 16 := 0x18#16
/-- `GD_UD`, the user data segment selector. -/
def gdUD : BitVec 16 := 0x20#16

/-! ### `inc/env.h` -/

/-- `NENV`, the size of the environment table. -/
abbrev nenv : ℕ := 1024

/-- `ENVX(envid)`: the index part of an environment id. -/
def envx (envid : Word) : Fin nenv :=
  ⟨(envid &&& 0x3FF#32).toNat, by
    rw [BitVec.toNat_and]
    exact Nat.lt_of_le_of_lt Nat.and_le_right (by decide)⟩

/-! ### `inc/error.h` -/

/-- `E_BAD_ENV`. -/
def eBadEnv : ℤ := 2
/-- `E_NO_MEM`. -/
def eNoMem : ℤ := 4
/-- `E_NO_FREE_ENV`. -/
def eNoFreeEnv : ℤ := 5
/-- `E_FAULT`. -/
def eFault : ℤ := 6

/-! ### Arithmetic of the macros -/

theorem pgnum_eq (la : Word) : pgnum la = la.toNat / 4096 := by
  simp [pgnum, Nat.shiftRight_eq_div_pow]

theorem pdx_val (la : Word) : (pdx la).val = la.toNat / 4194304 := by
  have hla := la.isLt
  simp only [pdx, BitVec.toNat_and, BitVec.toNat_ushiftRight, Nat.shiftRight_eq_div_pow]
  rw [show BitVec.toNat 0x3FF#32 = 2 ^ 10 - 1 from rfl, Nat.and_two_pow_sub_one_eq_mod]
  omega

theorem ptx_val (la : Word) : (ptx la).val = la.toNat / 4096 % 1024 := by
  simp only [ptx, BitVec.toNat_and, BitVec.toNat_ushiftRight, Nat.shiftRight_eq_div_pow]
  rw [show BitVec.toNat 0x3FF#32 = 2 ^ 10 - 1 from rfl, Nat.and_two_pow_sub_one_eq_mod]

theorem pgoff_eq (va : Word) : pgoff va = va.toNat % 4096 := by
  rw [pgoff, BitVec.toNat_and, show BitVec.toNat 0xFFF#32 = 2 ^ 12 - 1 from rfl,
    Nat.and_two_pow_sub_one_eq_mod]

/-- A page number is the pair of its table indices. -/
theorem pgnum_split (la : Word) : pgnum la = (pdx la).val * 1024 + (ptx la).val := by
  rw [pgnum_eq, pdx_val, ptx_val]
  omega

theorem pgaddr_toNat (d t : Fin 1024) :
    (pgaddr d t 0#32).toNat = d.val * 4194304 + t.val * 4096 := by
  have hd := d.isLt
  have ht := t.isLt
  -- the two fields do not overlap, so the disjunction is a sum
  have hor : d.val * 2 ^ 22 ||| t.val * 2 ^ 12 = d.val * 2 ^ 22 + t.val * 2 ^ 12 := by
    rw [mul_comm d.val, ← Nat.two_pow_add_eq_or_of_lt (by omega)]
  simp only [pgaddr, BitVec.or_zero, BitVec.toNat_or, BitVec.toNat_shiftLeft,
    BitVec.toNat_ofNat, Nat.shiftLeft_eq]
  rw [Nat.mod_eq_of_lt (show d.val < 2 ^ 32 by omega),
    Nat.mod_eq_of_lt (show t.val < 2 ^ 32 by omega),
    Nat.mod_eq_of_lt (show d.val * 2 ^ 22 < 2 ^ 32 by omega),
    Nat.mod_eq_of_lt (show t.val * 2 ^ 12 < 2 ^ 32 by omega), hor]
  omega

@[simp] theorem pdx_pgaddr (d t : Fin 1024) : pdx (pgaddr d t 0#32) = d := by
  ext
  rw [pdx_val, pgaddr_toNat]
  omega

@[simp] theorem ptx_pgaddr (d t : Fin 1024) : ptx (pgaddr d t 0#32) = t := by
  ext
  rw [ptx_val, pgaddr_toNat]
  omega

theorem pdx_utop : (pdx utop).val = 955 := by decide

theorem pdx_uvpt : pdx uvpt = 957 := by decide

/-- Below `UTOP` is below its page directory slot: `UTOP` is a multiple of
`PTSIZE`. -/
theorem lt_utop_iff (la : Word) : la < utop ↔ (pdx la).val < 955 := by
  rw [BitVec.lt_def, pdx_val, show utop.toNat = 955 * 4194304 by decide]
  omega

/-! ### Entries -/

/-- The page an entry refers to and its twelve permission bits; an entry without
`PTE_P` refers to nothing. -/
def entryOf (entry : Word) : Option (ℕ × BitVec 12) :=
  if present entry then some (pgnum (pteAddr entry), entry.setWidth 12) else none

/-- The mask `~(2 ^ k - 1)` clears what is below bit `k`. -/
theorem toNat_and_not_mask (w : Word) {k : ℕ} (hk : k < 32) :
    (w &&& ~~~BitVec.ofNat 32 (2 ^ k - 1)).toNat = w.toNat / 2 ^ k * 2 ^ k := by
  have hpow : 2 ^ k < 2 ^ 32 := Nat.pow_lt_pow_right (by omega) hk
  -- clearing the low bits is shifting them out and back
  have hshift : w &&& ~~~BitVec.ofNat 32 (2 ^ k - 1) = w >>> k <<< k := by
    ext i hi
    simp only [BitVec.getElem_and, BitVec.getElem_not, BitVec.getElem_shiftLeft]
    have hmask : (BitVec.ofNat 32 (2 ^ k - 1))[i] = decide (i < k) := by
      rw [← BitVec.getLsbD_eq_getElem, BitVec.getLsbD, BitVec.toNat_ofNat,
        Nat.mod_eq_of_lt (by omega), Nat.testBit_two_pow_sub_one]
    rw [hmask]
    by_cases h : i < k
    · simp [h]
    · have hadd : k + (i - k) = i := by omega
      simp only [h, decide_false, Bool.not_false, Bool.and_true, Bool.true_and,
        BitVec.getElem_ushiftRight, hadd]
      exact (BitVec.getLsbD_eq_getElem hi).symm
  have hle : w.toNat / 2 ^ k * 2 ^ k < 2 ^ 32 :=
    Nat.lt_of_le_of_lt (Nat.div_mul_le_self _ _) w.isLt
  calc (w &&& ~~~BitVec.ofNat 32 (2 ^ k - 1)).toNat
      = (w >>> k <<< k).toNat := by rw [hshift]
    _ = w.toNat / 2 ^ k * 2 ^ k % 2 ^ 32 := by
        rw [BitVec.toNat_shiftLeft, BitVec.toNat_ushiftRight, Nat.shiftRight_eq_div_pow,
          Nat.shiftLeft_eq]
    _ = w.toNat / 2 ^ k * 2 ^ k := Nat.mod_eq_of_lt hle

theorem pgnum_pteAddr (w : Word) : pgnum (pteAddr w) = w.toNat / 4096 := by
  -- the mask only clears bits that the shift drops
  have h : pteAddr w >>> 12 = w >>> 12 := by
    ext i hi
    simp only [pteAddr, BitVec.getElem_ushiftRight, BitVec.getLsbD_and, BitVec.getLsbD_not]
    by_cases h : 12 + i < 32
    · have hmask : BitVec.getLsbD 0xFFF#32 (12 + i) = false := by
        rw [BitVec.getLsbD, show BitVec.toNat 0xFFF#32 = 2 ^ 12 - 1 from rfl,
          Nat.testBit_two_pow_sub_one]
        simp
      simp only [h, hmask, decide_true, Bool.not_false, Bool.and_self, Bool.and_true]
    · rw [BitVec.getLsbD_of_ge w (12 + i) (by omega)]
      simp
  rw [pgnum, h, ← pgnum, pgnum_eq]

theorem present_iff (w : Word) : present w = true ↔ w.toNat % 2 = 1 := by
  -- `PTE_P` is the lowest bit
  have h : w &&& pteP = BitVec.ofNat 32 (w.toNat % 2) := by
    apply BitVec.eq_of_toNat_eq
    rw [BitVec.toNat_and, show pteP.toNat = 2 ^ 1 - 1 from rfl, Nat.and_two_pow_sub_one_eq_mod]
    simp only [BitVec.toNat_ofNat, pow_one]
    omega
  rw [present, h, bne_iff_ne, Ne, ← BitVec.toNat_inj]
  simp only [BitVec.toNat_ofNat]
  omega

@[simp] theorem entryOf_zero : entryOf 0#32 = none := by decide

theorem entryOf_eq_none {w : Word} : entryOf w = none ↔ present w = false := by
  unfold entryOf
  split <;> simp_all

theorem entryOf_some {w : Word} (h : present w = true) :
    entryOf w = some (pgnum (pteAddr w), w.setWidth 12) := by
  rw [entryOf, if_pos h]

theorem entryOf_eq_some {w : Word} {p : ℕ} {π : BitVec 12} :
    entryOf w = some (p, π) ↔
      present w = true ∧ pgnum (pteAddr w) = p ∧ w.setWidth 12 = π := by
  unfold entryOf
  split <;> simp_all

theorem not_present_of_entryOf {w : Word} (h : entryOf w = none) : ¬present w = true := by
  rw [entryOf_eq_none.mp h]
  simp

end Jos
