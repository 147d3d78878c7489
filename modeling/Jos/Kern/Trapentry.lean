import Jos.Kern.State
import Jos.Library.ByteStack

/-!
# Entering and leaving the kernel

The way of the registers of an environment into a `struct Trapframe` and back: the interrupt
descriptor table of `trap_init`, the stubs and `_alltraps` of `kern/trapentry.S`, and the assembly
of `env_pop_tf` in `kern/env.c`.

* The processor is `Machine`: the registers and a byte-addressed memory. Each function runs the
  instructions of the source one after the other.
* A selector is pushed as a word of which only the low half is defined; the high half is taken
  from a `Padding`, about which nothing is assumed.
* `trapEntry` is what the processor does itself when it takes a trap from user mode, and
  `Machine.iret` what it does to return there.
-/

namespace Jos

/-- The registers and the memory of a processor. -/
structure Machine where
  eax : Word
  ecx : Word
  edx : Word
  ebx : Word
  esp : Word
  ebp : Word
  esi : Word
  edi : Word
  eip : Word
  eflags : Word
  cs : BitVec 16
  ss : BitVec 16
  ds : BitVec 16
  es : BitVec 16
  mem : ByteMem

namespace Machine

/-- `pushl w`. -/
def push (s : Machine) (w : Word) : Machine :=
  { s with esp := s.esp - 4#32, mem := store32 s.mem (s.esp - 4#32) w }

/-- `popl`: the word and the machine after it. -/
def pop (s : Machine) : Word × Machine := (load32 s.mem s.esp, { s with esp := s.esp + 4#32 })

/-- `pushal`. The stack pointer that is pushed is the one before the instruction. -/
def pushal (s : Machine) : Machine :=
  (((((((s.push s.eax).push s.ecx).push s.edx).push s.ebx).push s.esp).push s.ebp).push
    s.esi).push s.edi

/-- `popal`. The stack pointer on the stack is skipped. -/
def popal (s : Machine) : Machine :=
  let (edi, s) := s.pop
  let (esi, s) := s.pop
  let (ebp, s) := s.pop
  let (_, s) := s.pop
  let (ebx, s) := s.pop
  let (edx, s) := s.pop
  let (ecx, s) := s.pop
  let (eax, s) := s.pop
  { s with edi := edi, esi := esi, ebp := ebp, ebx := ebx, edx := edx, ecx := ecx, eax := eax }

/-- `iret`. The stack is switched on a return to a less privileged level. -/
def iret (s : Machine) : Machine :=
  let cpl := s.cs &&& 3#16
  let (eip, s) := s.pop
  let (cs, s) := s.pop
  let (eflags, s) := s.pop
  let s := { s with eip := eip, cs := cs.setWidth 16, eflags := eflags }
  if cpl < s.cs &&& 3#16 then
    let (esp, s) := s.pop
    let (ss, s) := s.pop
    { s with esp := esp, ss := ss.setWidth 16 }
  else s

end Machine

/-! ### `kern/trapentry.S` -/

/-- The entry points. -/
inductive Handler where
  | handler0 | handler1 | handler2 | handler3 | handler4 | handler5 | handler6 | handler7
  | handler8 | handler10 | handler11 | handler12 | handler13 | handler14 | handler16 | handler48
deriving DecidableEq, Repr

/-- `GD_KT`, the kernel text segment selector. -/
def gdKT : BitVec 16 := 0x08#16
/-- `GD_KD`, the kernel data segment selector. -/
def gdKD : BitVec 16 := 0x10#16

/-- The two macros that make an entry point. -/
inductive Stub where
  /-- `TRAPHANDLER(name, num)`, for traps with an error code. -/
  | traphandler (num : Word)
  /-- `TRAPHANDLER_NOEC(name, num)`, for traps without one. -/
  | traphandlerNoec (num : Word)

/-- The code of an entry point, up to the jump to `_alltraps`. -/
def Stub.run : Stub → Machine → Machine
  | .traphandler num, s => s.push num
  | .traphandlerNoec num, s => (s.push 0#32).push num

/-- How each entry point is made. -/
def Handler.stub : Handler → Stub
  | .handler0 => .traphandlerNoec 0#32
  | .handler1 => .traphandlerNoec 1#32
  | .handler2 => .traphandlerNoec 2#32
  | .handler3 => .traphandlerNoec 3#32
  | .handler4 => .traphandlerNoec 4#32
  | .handler5 => .traphandlerNoec 5#32
  | .handler6 => .traphandlerNoec 6#32
  | .handler7 => .traphandler 7#32
  | .handler8 => .traphandlerNoec 8#32
  | .handler10 => .traphandler 10#32
  | .handler11 => .traphandler 11#32
  | .handler12 => .traphandler 12#32
  | .handler13 => .traphandler 13#32
  | .handler14 => .traphandler 14#32
  | .handler16 => .traphandlerNoec 16#32
  | .handler48 => .traphandlerNoec 48#32

/-- The undefined high halves of the words that selectors are pushed as. -/
structure Padding where
  ss : BitVec 16
  cs : BitVec 16
  ds : BitVec 16
  es : BitVec 16

/-- `_alltraps`, up to the first instruction of `trap`: its argument and the machine; `ret` is the
return address that the call pushes. -/
def alltraps (pad : Padding) (ret : Word) (s : Machine) : Word × Machine :=
  let s := s.push (pad.ds ++ s.ds)
  let s := s.push (pad.es ++ s.es)
  let s := s.pushal
  let s := { s with eax := s.eax.extractLsb' 16 16 ++ gdKD, ds := gdKD, es := gdKD }
  (s.esp, (s.push s.esp).push ret)

/-! ### `trap_init` -/

/-- What `SETGATE` puts into a gate: the entry point, and the privilege level that may use the gate
with the `int` instruction. -/
structure Gate where
  off : Handler
  dpl : ℕ

/-- The gates of `idt` that `trap_init` installs. -/
def idt : ℕ → Option Gate
  | 0 => some ⟨.handler0, 0⟩
  | 1 => some ⟨.handler1, 0⟩
  | 2 => some ⟨.handler2, 0⟩
  | 3 => some ⟨.handler3, 3⟩
  | 4 => some ⟨.handler4, 0⟩
  | 5 => some ⟨.handler5, 0⟩
  | 6 => some ⟨.handler6, 0⟩
  | 7 => some ⟨.handler7, 0⟩
  | 8 => some ⟨.handler8, 0⟩
  | 10 => some ⟨.handler10, 0⟩
  | 11 => some ⟨.handler11, 0⟩
  | 12 => some ⟨.handler12, 0⟩
  | 13 => some ⟨.handler13, 0⟩
  | 14 => some ⟨.handler14, 0⟩
  | 16 => some ⟨.handler16, 0⟩
  | 48 => some ⟨.handler48, 3⟩
  | _ => none

/-! ### The processor -/

/-- The vectors for which the processor pushes an error code. -/
def PushesError (vector : ℕ) : Prop := vector = 8 ∨ 10 ≤ vector ∧ vector ≤ 14

instance (vector : ℕ) : Decidable (PushesError vector) :=
  inferInstanceAs (Decidable (_ ∨ _))

/-- The flags that an interrupt gate clears: `FL_TF`, `FL_IF`, `FL_NT`, `FL_RF` and `FL_VM`. -/
def gateMask : Word := 0x00034300#32

/-- The processor takes a trap from user mode through an interrupt gate: it switches to the kernel
stack at `esp0` and pushes the registers it is about to change, and an error code for some
vectors. -/
def trapEntry (vector : ℕ) (err : Word) (pad : Padding) (esp0 : Word) (s : Machine) : Machine :=
  let user := s
  let s := { s with esp := esp0, ss := gdKD }
  let s := s.push (pad.ss ++ user.ss)
  let s := s.push user.esp
  let s := s.push user.eflags
  let s := s.push (pad.cs ++ user.cs)
  let s := s.push user.eip
  let s := { s with cs := gdKT, eflags := user.eflags &&& ~~~gateMask }
  if PushesError vector then s.push err else s

/-- A trap from user mode through `gate`, up to the first instruction of `trap`. -/
def enterKernel (vector : ℕ) (gate : Gate) (err : Word) (pad : Padding) (esp0 ret : Word)
    (user : Machine) : Word × Machine :=
  alltraps pad ret (gate.off.stub.run (trapEntry vector err pad esp0 user))

/-! ### `struct Trapframe` in memory -/

/-- `sizeof(struct Trapframe)`. -/
def sizeofTrapframe : ℕ := 68

/-- The packed `struct Trapframe` at `tf`. -/
def decodeTrapframe (m : ByteMem) (tf : Word) : Trapframe where
  tfRegs :=
    { regEdi := load32 m tf
      regEsi := load32 m (tf + 4#32)
      regEbp := load32 m (tf + 8#32)
      regOesp := load32 m (tf + 12#32)
      regEbx := load32 m (tf + 16#32)
      regEdx := load32 m (tf + 20#32)
      regEcx := load32 m (tf + 24#32)
      regEax := load32 m (tf + 28#32) }
  tfEs := load16 m (tf + 32#32)
  tfDs := load16 m (tf + 36#32)
  tfTrapno := load32 m (tf + 40#32)
  tfErr := load32 m (tf + 44#32)
  tfEip := load32 m (tf + 48#32)
  tfCs := load16 m (tf + 52#32)
  tfEflags := load32 m (tf + 56#32)
  tfEsp := load32 m (tf + 60#32)
  tfSs := load16 m (tf + 64#32)

/-- The assembly of `env_pop_tf(tf)`. -/
def popTrapframe (tf : Word) (s : Machine) : Machine :=
  let s := { s with esp := tf }
  let s := s.popal
  let (es, s) := s.pop
  let s := { s with es := es.setWidth 16 }
  let (ds, s) := s.pop
  let s := { s with ds := ds.setWidth 16 }
  -- skip tf_trapno and tf_err
  let s := { s with esp := s.esp + 8#32 }
  s.iret

end Jos
