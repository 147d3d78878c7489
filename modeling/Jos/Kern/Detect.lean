import Jos.Kern.Pmap
import Jos.Lib.Printfmt

/-!
# Memory detection

`i386_detect_memory` of `kern/pmap.c` asks the CMOS how much memory there is, and everything
that follows during `mem_init` believes it: the address conversions of `kern/pmap.h`,
`page_init`, and the calls of `boot_alloc` before it. A `Boot` is a machine on which this works
out; here is the code for any `MemSize` the detection can come up with.
-/

namespace Jos

/-! ### `i386_detect_memory` -/

/-- `NVRAM_BASELO`: base memory in kilobytes. -/
def nvramBaselo : ℕ := 0x15
/-- `NVRAM_EXTLO`: extended memory up to 16 MB, in kilobytes. -/
def nvramExtlo : ℕ := 0x17
/-- `NVRAM_EXT16LO`: extended memory above 16 MB, in units of 64 kilobytes. -/
def nvramExt16lo : ℕ := 0x34

/-- `nvram_read(r)`, where `cmos` holds the bytes `mc146818_read` returns. -/
def nvramRead (cmos : ℕ → Byte) (r : ℕ) : Word :=
  (cmos r).setWidth 32 ||| (cmos (r + 1)).setWidth 32 <<< 8

/-- `i386_detect_memory()`, less its message. -/
def i386DetectMemory (cmos : ℕ → Byte) : MemSize :=
  let basemem := nvramRead cmos nvramBaselo
  let extmem := nvramRead cmos nvramExtlo
  let ext16mem := nvramRead cmos nvramExt16lo * 64#32
  let totalmem :=
    if ext16mem ≠ 0#32 then 16#32 * 1024#32 + ext16mem
    else if extmem ≠ 0#32 then 1#32 * 1024#32 + extmem
    else basemem
  { npages := (totalmem / (pgsize / 1024#32)).toNat
    npagesBasemem := (basemem / (pgsize / 1024#32)).toNat }

/-! ### `boot_alloc` -/

/-- One call of `boot_alloc`: the request `n` and the address that is returned. -/
structure BootCall where
  n : Word
  result : Word
deriving DecidableEq, Repr

/-- One more call `boot_alloc(n)` after the calls so far; `nextfree` is static. -/
def bootAllocStep (kernEnd : Word) (s : Word × List BootCall) (n : Word) : Word × List BootCall :=
  let (result, nextfree) := bootAlloc kernEnd s.1 n
  (nextfree, s.2 ++ [⟨n, result⟩])

/-- The value of `nextfree` after `boot_alloc` has been called with each of `ns` in turn, and
these calls. -/
def bootAllocRun (kernEnd : Word) (ns : List Word) : Word × List BootCall :=
  ns.foldl (bootAllocStep kernEnd) (0#32, [])

/-- What `boot_alloc(0)` returns after these calls. -/
def bootPosition (kernEnd : Word) (ns : List Word) : Word :=
  (bootAlloc kernEnd (bootAllocRun kernEnd ns).1 0#32).1

/-! ### The machines the rest of the kernel is about -/

namespace Boot

/-- `mem_init` has called `boot_alloc` three times before `page_init`. -/
theorem bootPosition_bootFree (B : Boot) :
    bootPosition B.kernEnd [BitVec.ofNat 32 (sizeofPageInfo * B.npages), pgsize,
      BitVec.ofNat 32 (sizeofEnv * nenv)] = B.bootFree := rfl

end Boot

end Jos
