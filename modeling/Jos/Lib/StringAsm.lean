import Jos.Lib.Printfmt
import Jos.Library.ByteStack

/-!
# Memory routines

`memset` and `memmove` of `lib/string.c`, in the version for the x86 (`#if ASM`) and in plain
C, with the instructions that the first one is made of. Memory is the bytes at all addresses,
through segments that start at 0; an access that faults is not modelled.
-/

namespace Jos

/-! ### String instructions -/

/-- What `memset` and `memmove` work on: memory, and the direction flag, which is not restored
behind an `asm` statement. -/
structure StringState where
  mem : ByteMem
  df : Bool

/-- The registers of the string instructions. -/
structure StringCpu extends StringState where
  eax : Word := 0#32
  ecx : Word
  edi : Word
  esi : Word := 0#32

namespace StringCpu

/-- `cld`. -/
def cld (cpu : StringCpu) : StringCpu := { cpu with df := false }

/-- `std`. -/
def std (cpu : StringCpu) : StringCpu := { cpu with df := true }

/-- An index register behind an operand of `size` bytes: down if the direction flag is set. -/
def advance (cpu : StringCpu) (size p : Word) : Word := if cpu.df then p - size else p + size

/-- `stosb`. -/
def stosb (cpu : StringCpu) : StringCpu :=
  { cpu with
    mem := Function.update cpu.mem cpu.edi (cpu.eax.setWidth 8)
    edi := cpu.advance 1#32 cpu.edi }

/-- `stosl`. -/
def stosl (cpu : StringCpu) : StringCpu :=
  { cpu with
    mem := store32 cpu.mem cpu.edi cpu.eax
    edi := cpu.advance 4#32 cpu.edi }

/-- `movsb`. -/
def movsb (cpu : StringCpu) : StringCpu :=
  { cpu with
    mem := Function.update cpu.mem cpu.edi (cpu.mem cpu.esi)
    edi := cpu.advance 1#32 cpu.edi
    esi := cpu.advance 1#32 cpu.esi }

/-- `movsl`. -/
def movsl (cpu : StringCpu) : StringCpu :=
  { cpu with
    mem := store32 cpu.mem cpu.edi (load32 cpu.mem cpu.esi)
    edi := cpu.advance 4#32 cpu.edi
    esi := cpu.advance 4#32 cpu.esi }

/-- `rep`: the instruction, until `ecx` has been counted down to 0. -/
def rep (insn : StringCpu → StringCpu) (cpu : StringCpu) : StringCpu :=
  (fun cpu => { insn cpu with ecx := cpu.ecx - 1#32 })^[cpu.ecx.toNat] cpu

end StringCpu

/-! ### `#if ASM` -/

namespace StringAsm

open StringCpu

/-- `memset(v, c, n)`. -/
def memset (v c n : Word) (st : StringState) : Word × StringState :=
  if n = 0#32 then (v, st)
  else if v.srem 4#32 = 0#32 ∧ n % 4#32 = 0#32 then
    let c := c &&& 0xff#32
    let c := c <<< 24 ||| c <<< 16 ||| c <<< 8 ||| c
    let cpu : StringCpu := { st with eax := c, ecx := n / 4#32, edi := v }
    (v, (rep stosl cpu.cld).toStringState)
  else
    let cpu : StringCpu := { st with eax := c, ecx := n, edi := v }
    (v, (rep stosb cpu.cld).toStringState)

/-- `memmove(dst, src, n)`. -/
def memmove (dst src n : Word) (st : StringState) : Word × StringState :=
  let s := src
  let d := dst
  if s < d ∧ s + n > d then
    let s := s + n
    let d := d + n
    let cpu :=
      if s.srem 4#32 = 0#32 ∧ d.srem 4#32 = 0#32 ∧ n % 4#32 = 0#32 then
        rep movsl (std { st with ecx := n / 4#32, edi := d - 4#32, esi := s - 4#32 })
      else
        rep movsb (std { st with ecx := n, edi := d - 1#32, esi := s - 1#32 })
    (dst, cpu.cld.toStringState)
  else
    let cpu :=
      if s.srem 4#32 = 0#32 ∧ d.srem 4#32 = 0#32 ∧ n % 4#32 = 0#32 then
        rep movsl (cld { st with ecx := n / 4#32, edi := d, esi := s })
      else
        rep movsb (cld { st with ecx := n, edi := d, esi := s })
    (dst, cpu.toStringState)

end StringAsm

/-! ### `#else` -/

namespace StringC

/-- `while (--m >= 0) *p++ = c`. -/
def memsetLoop (c : Byte) (m : ℤ) (p : Word) (mem : ByteMem) : ByteMem :=
  let m := m - 1
  if m ≥ 0 then memsetLoop c m (p + 1#32) (Function.update mem p c) else mem
termination_by m.toNat

/-- `memset(v, c, n)`. -/
def memset (v c n : Word) (mem : ByteMem) : Word × ByteMem :=
  (v, memsetLoop (c.setWidth 8) n.toInt v mem)

/-- `while (n-- > 0) *--d = *--s`. -/
def memmoveDown : ℕ → Word → Word → ByteMem → ByteMem
  | 0, _, _, mem => mem
  | n + 1, d, s, mem =>
    let d := d - 1#32
    let s := s - 1#32
    memmoveDown n d s (Function.update mem d (mem s))

/-- `while (n-- > 0) *d++ = *s++`. -/
def memmoveUp : ℕ → Word → Word → ByteMem → ByteMem
  | 0, _, _, mem => mem
  | n + 1, d, s, mem => memmoveUp n (d + 1#32) (s + 1#32) (Function.update mem d (mem s))

/-- `memmove(dst, src, n)`. -/
def memmove (dst src n : Word) (mem : ByteMem) : Word × ByteMem :=
  let s := src
  let d := dst
  if s < d ∧ s + n > d then (dst, memmoveDown n.toNat (d + n) (s + n) mem)
  else (dst, memmoveUp n.toNat d s mem)

end StringC

end Jos
