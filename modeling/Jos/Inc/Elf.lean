import Jos.Inc.Mmu
import Jos.Lib.Printfmt

/-!
# ELF images

What the two loaders use of `inc/elf.h`, and the values in an image whose bytes are known.
-/

namespace Jos

/-- `ELF_PROG_LOAD`. -/
def elfProgLoad : Word := 1#32

/-- `n` bytes of an image, the lowest address first. -/
def imageBytes (image : Word → Byte) (a : Word) (n : ℕ) : List Byte :=
  (List.range n).map fun k => image (a + BitVec.ofNat 32 k)

/-- The value of `n` bytes of an image. -/
def imageValue (image : Word → Byte) (a : Word) (n : ℕ) : Word :=
  BitVec.ofNat 32 ((imageBytes image a n).foldr (fun b v => b.toNat + 256 * v) 0)

end Jos
