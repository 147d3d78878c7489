import Jos.Kern.Backtrace
import Jos.Kern.Trap
import Jos.Lib.Readline

/-!
# The kernel monitor

`monitor` of `kern/monitor.c`: its commands, and the loop that reads a line and runs it; and
`print_trapframe` of `kern/trap.c`, which it calls first when it is entered by a trap.

A round of the loop finds memory in the state that the work before it has left: what is in the
buffer of `readline`, on the stack where `argv` will be, and in the frames. All this is an input
of the round (`RoundInput`). The buffer is apart from the memory in `σ`; `KernelImage.memory` puts
the two together.
-/

namespace Jos

/-- `commands[i].desc`. -/
def Command.desc : Command → List Byte
  | .help => text "Display this list of commands"
  | .kerninfo => text "Display information about the kernel"
  | .backtrace => text "Display backtrace info"

/-- The kernel as it was linked: the addresses of its string constants, of `buf` in
`lib/readline.c` and of the symbols that `mon_kerninfo` prints. -/
structure KernelImage where
  B : Boot
  linked : UserStabData
  rodata : List Byte → Word
  line : Word
  start : Word
  entry : Word
  etext : Word
  edata : Word
  ending : Word
  high : kernbase ≤ entry
  ordered : entry ≤ ending
  line_pos : 0 < line.toNat
  line_fits : line.toNat + buflen ≤ 2 ^ 32

/-- Memory with the bytes of `buf` at `p`. -/
def withLine (m : Memory) (p : Word) (buf : ℕ → Byte) : Memory := fun a =>
  if (a - p).toNat < buflen then some (buf (a - p).toNat) else m a

/-- What the kernel sees when `buf` is in the buffer of `readline`. -/
def KernelImage.memory (K : KernelImage) (cpu : ℕ) (σ : State) (buf : ℕ → Byte) : Memory :=
  withLine (cpuMemory σ cpu) K.line buf

/-! ### The commands -/

/-- `mon_help(argc, argv, tf)`. -/
def monHelp (m : Memory) (rodata : List Byte → Word) : Mon Unit :=
  commands.forM fun c => Mon.print m "%s - %s\n" [rodata c.name, rodata c.desc]

/-- `mon_kerninfo(argc, argv, tf)`. -/
def monKerninfo (m : Memory) (K : KernelImage) : Mon Unit := do
  Mon.print m "Special kernel symbols:\n" []
  Mon.print m "  _start                  %08x (phys)\n" [K.start]
  Mon.print m "  entry  %08x (virt)  %08x (phys)\n" [K.entry, K.entry - kernbase]
  Mon.print m "  etext  %08x (virt)  %08x (phys)\n" [K.etext, K.etext - kernbase]
  Mon.print m "  edata  %08x (virt)  %08x (phys)\n" [K.edata, K.edata - kernbase]
  Mon.print m "  end    %08x (virt)  %08x (phys)\n" [K.ending, K.ending - kernbase]
  Mon.print m "Kernel executable memory footprint: %dKB\n"
    [(roundUp (K.ending - K.entry) 1024#32).sdiv 1024#32]

/-! ### The trap frame -/

/-- `excnames`. -/
def excnames : List (List Byte) :=
  [text "Divide error", text "Debug", text "Non-Maskable Interrupt", text "Breakpoint",
    text "Overflow", text "BOUND Range Exceeded", text "Invalid Opcode",
    text "Device Not Available", text "Double Fault", text "Coprocessor Segment Overrun",
    text "Invalid TSS", text "Segment Not Present", text "Stack Fault", text "General Protection",
    text "Page Fault", text "(unknown trap)", text "x87 FPU Floating-Point Error",
    text "Alignment Check", text "Machine-Check", text "SIMD Floating-Point Exception"]

/-- `IRQ_OFFSET`. -/
def trapIrqOffset : Word := 32#32

/-- `trapname(trapno)`. The comparison with the size of the table is one of unsigned numbers. -/
def trapname (trapno : Word) : List Byte :=
  if trapno < BitVec.ofNat 32 excnames.length then excnames.getD trapno.toNat []
  else if trapno = tSyscall then text "System call"
  -- these two comparisons are signed
  else if trapIrqOffset.sle trapno ∧ trapno.slt (trapIrqOffset + 16#32) then
    text "Hardware Interrupt"
  else text "(unknown trap)"

/-- `print_regs(regs)`. -/
def printRegs (m : Memory) (regs : PushRegs) : Mon Unit := do
  Mon.print m "  edi  0x%08x\n" [regs.regEdi]
  Mon.print m "  esi  0x%08x\n" [regs.regEsi]
  Mon.print m "  ebp  0x%08x\n" [regs.regEbp]
  Mon.print m "  oesp 0x%08x\n" [regs.regOesp]
  Mon.print m "  ebx  0x%08x\n" [regs.regEbx]
  Mon.print m "  edx  0x%08x\n" [regs.regEdx]
  Mon.print m "  ecx  0x%08x\n" [regs.regEcx]
  Mon.print m "  eax  0x%08x\n" [regs.regEax]

/-- What `print_trapframe` reads besides the frame: its address, `last_tf`, `cpunum()` and
`rcr2()`. -/
structure TrapPlace where
  tf : Word
  lastTf : Word
  cpunum : Word
  cr2 : Word

/-- `if (c) x`. -/
def Mon.when (c : Prop) [Decidable c] (x : Mon Unit) : Mon Unit := if c then x else pure ()

/-- The decoded error code of a page fault, or the end of the line. -/
def printErrorCode (m : Memory) (rodata : List Byte → Word) (tf : Trapframe) : Mon Unit :=
  if tf.tfTrapno = tPgflt then
    Mon.print m " [%s, %s, %s]\n"
      [rodata (if tf.tfErr &&& 4#32 ≠ 0#32 then text "user" else text "kernel"),
        rodata (if tf.tfErr &&& 2#32 ≠ 0#32 then text "write" else text "read"),
        rodata (if tf.tfErr &&& 1#32 ≠ 0#32 then text "protection" else text "not-present")]
  else Mon.print m "\n" []

/-- `print_trapframe(tf)`. -/
def printTrapframe (m : Memory) (rodata : List Byte → Word) (place : TrapPlace) (tf : Trapframe) :
    Mon Unit := do
  Mon.print m "TRAP frame at %p from CPU %d\n" [place.tf, place.cpunum]
  printRegs m tf.tfRegs
  Mon.print m "  es   0x----%04x\n" [tf.tfEs.setWidth 32]
  Mon.print m "  ds   0x----%04x\n" [tf.tfDs.setWidth 32]
  Mon.print m "  trap 0x%08x %s\n" [tf.tfTrapno, rodata (trapname tf.tfTrapno)]
  -- `cr2` is that of the last trap only
  Mon.when (place.tf = place.lastTf ∧ tf.tfTrapno = tPgflt)
    (Mon.print m "  cr2  0x%08x\n" [place.cr2])
  Mon.print m "  err  0x%08x" [tf.tfErr]
  printErrorCode m rodata tf
  Mon.print m "  eip  0x%08x\n" [tf.tfEip]
  Mon.print m "  cs   0x----%04x\n" [tf.tfCs.setWidth 32]
  Mon.print m "  flag 0x%08x\n" [tf.tfEflags]
  -- a trap in the kernel pushes no stack pointer
  Mon.when (tf.tfCs &&& 3#16 ≠ 0#16) do
    Mon.print m "  esp  0x%08x\n" [tf.tfEsp]
    Mon.print m "  ss   0x----%04x\n" [tf.tfSs.setWidth 32]

/-! ### The loop -/

/-- What a round of the loop finds: what `getchar` returns in it, the memory apart from the
buffer of `readline`, that buffer, the place of `argv` on the stack, and what `read_ebp()`
returns in `mon_backtrace`. -/
structure RoundInput where
  keys : List Word
  σ : State
  buf : ℕ → Byte
  argv : ℕ → Word
  ebp : Word

/-- Where the monitor is. -/
inductive MonitorState where
  /-- About to print the prompt. -/
  | prompting
  /-- In `readline`, with no key left. -/
  | reading
  /-- It has returned. -/
  | left
deriving DecidableEq

/-- `commands[i].func(argc, argv, tf)` in the memory `m`; all of them return 0. -/
def callCommand (K : KernelImage) (cpu : ℕ) (r : RoundInput) (m : Memory) : Command → Mon Word
  | .help => do
    monHelp m K.rodata
    pure 0#32
  | .kerninfo => do
    monKerninfo m K
    pure 0#32
  | .backtrace => do
    let _ ← monBacktrace K.B K.linked cpu K.rodata r.ebp r.σ
    pure 0#32

/-- `runcmd(buf, tf)`, with the command that it calls. -/
def runLine (K : KernelImage) (cpu : ℕ) (r : RoundInput) (m : Memory) : Mon Word := do
  match ← (runcmd m r.argv K.line).translate .cmd .fmt with
  | .returned v => pure v
  | .called c p => callCommand K cpu r p.m c

/-- The body of `while (1)`. -/
def monitorRound (K : KernelImage) (cpu : ℕ) (r : RoundInput) : Mon MonitorState := do
  match ← Mon.fmt (readline (K.memory cpu r.σ r.buf) (K.rodata (text "K> ")) r.keys r.buf) with
  | .reading _ _ => pure .reading
  -- `readline` has returned NULL, and the loop goes on
  | .returned none => pure .prompting
  | .returned (some buf) => do
    let v ← runLine K cpu r (K.memory cpu r.σ buf)
    pure (if v.slt 0#32 then .left else .prompting)

/-- The loop, for as many rounds as there are. -/
def monitorLoop (K : KernelImage) (cpu : ℕ) : List RoundInput → Mon MonitorState
  | [] => pure .prompting
  | r :: rs => do
    match ← monitorRound K cpu r with
    | .prompting => monitorLoop K cpu rs
    | s => pure s

/-- `if (tf != NULL) print_trapframe(tf)`. -/
def printTf (m : Memory) (rodata : List Byte → Word) : Option (TrapPlace × Trapframe) → Mon Unit
  | some (place, tf) => printTrapframe m rodata place tf
  | none => pure ()

/-- `monitor(tf)`; `tf` is not null when the monitor is entered by a trap. -/
def monitor (K : KernelImage) (cpu : ℕ) (m : Memory) (tf : Option (TrapPlace × Trapframe))
    (rounds : List RoundInput) : Mon MonitorState := do
  Mon.print m "Welcome to the JOS kernel monitor!\n" []
  Mon.print m "Type 'help' for a list of commands.\n" []
  printTf m K.rodata tf
  monitorLoop K cpu rounds

end Jos
