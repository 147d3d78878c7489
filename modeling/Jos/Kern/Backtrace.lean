import Jos.Kern.Kdebug
import Jos.Kern.Monitor

/-!
# Walks of the stack

`mon_backtrace` of `kern/monitor.c` and `get_caller_pcs` of `kern/spinlock.c`. Both follow the
saved `%ebp`s: at the address in `%ebp` is that of the caller, and above it the return address
and the arguments. What `get_caller_pcs` has recorded is printed when a lock is released by
a processor that does not hold it.

* `read_ebp()` is a parameter.
* A string constant has an address, which `rodata` gives.
* The messages go through `cprintf`; a run is a log of them and of the words of
  the stack and the debug information that are read.
-/

namespace Jos

/-- What the monitor does to the outside. -/
inductive MonEvent where
  /-- A part of the work of `cprintf` and `readline`. -/
  | console (e : FmtEvent)
  /-- A part of the work of `runcmd`. -/
  | cmd (e : CmdEvent)
  /-- A read of a word of the stack, or of a byte of a `struct CpuInfo`. -/
  | load (a : Word)
  /-- A part of the work of `debuginfo_eip`. -/
  | debug (e : DebugEvent)

/-- Why it does not return. -/
inductive MonAbort where
  | fault (a : Word)
  | fmt (a : FmtAbort)
  | debug (a : DebugAbort)
  | looping

/-- A piece of the work of the monitor. -/
abbrev Mon := Logged MonEvent MonAbort

/-- The word at `a`. -/
def readWord (m : Memory) (a : Word) : Option Word := (readBytes m 4 a).map (BitVec.ofNat 32)

namespace Mon

/-- What the formatter does. -/
def fmt {α : Type} (x : Fmt α) : Mon α := x.translate .console .fmt

/-- `cprintf(fmt, ...)`. -/
def print (m : Memory) (fmt : String) (args : List Word) : Mon Unit := do
  let _ ← Mon.fmt (cprintf m fmt args)
  pure ()

/-- `*p`, for a `uint32_t *p`. -/
def load (m : Memory) (p : Word) : Mon Word :=
  ⟨[.load p], match readWord m p with
    | some w => .ok w
    | none => .error (.fault p)⟩

/-- `*p`, for a `uint8_t *p`. -/
def loadByte (m : Memory) (p : Word) : Mon Byte :=
  ⟨[.load p], match m p with
    | some b => .ok b
    | none => .error (.fault p)⟩

end Mon

/-- The address of a string. -/
def CString.address (rodata : List Byte → Word) : CString → Word
  | .arg p => p
  | .const s => rodata s

/-- `for (i = 0; i < 5; i++)`: what `mon_backtrace` prints of the arguments. -/
def printArgs (m : Memory) (args : Word) : Mon Unit :=
  (List.range 5).forM fun i => do
    let argi ← Mon.load m (args + BitVec.ofNat 32 (4 * i))
    Mon.print m " %08x " [argi]

/-- The body of the loop of `mon_backtrace`: the next `ebp`. -/
def backtraceFrame (B : Boot) (linked : UserStabData) (cpu : ℕ) (rodata : List Byte → Word)
    (ebp : Word) (σ : State) : Mon (Word × State) := do
  let m := cpuMemory σ cpu
  let eip ← Mon.load m (ebp + 4#32)
  Mon.print m "ebp %x eip %x args" [ebp, eip]
  printArgs m (ebp + 8#32)
  Mon.print m "\n" []
  let (_, info, σ) ← (debuginfoEip B linked cpu eip σ).translate .debug .debug
  let m := cpuMemory σ cpu
  Mon.print m "\t%s:%d: %.*s+%d\n" [info.eipFile.address rodata, info.eipLine,
    info.eipFnNamelen, info.eipFnName.address rodata, eip - info.eipFnAddr]
  let ebp ← Mon.load m ebp
  pure (ebp, σ)

/-- `while (ebp)`. -/
def backtraceLoop (B : Boot) (linked : UserStabData) (cpu : ℕ) (rodata : List Byte → Word) :
    ℕ → Word → State → Mon State
  | 0, _, _ => Logged.stop .looping
  | fuel + 1, ebp, σ =>
    if ebp = 0#32 then pure σ
    else do
      let (ebp, σ) ← backtraceFrame B linked cpu rodata ebp σ
      backtraceLoop B linked cpu rodata fuel ebp σ

/-- `mon_backtrace(argc, argv, tf)`, which returns 0: the state behind it. The frames it visits
are at different addresses unless it runs in a circle, so that much fuel decides. -/
def monBacktrace (B : Boot) (linked : UserStabData) (cpu : ℕ) (rodata : List Byte → Word)
    (ebp : Word) (σ : State) : Mon State :=
  backtraceLoop B linked cpu rodata (2 ^ 32) ebp σ

/-- `get_caller_pcs(pcs)`, with `n` of the 10 entries left: what it writes to them. -/
def callerPcs (m : Memory) : ℕ → Word → Mon (List Word)
  | 0, _ => pure []
  | n + 1, ebp =>
    if ebp = 0#32 ∨ ebp < ulim then pure (List.replicate (n + 1) 0#32)
    else do
      let pc ← Mon.load m (ebp + 4#32)
      let ebp ← Mon.load m ebp
      let pcs ← callerPcs m n ebp
      pure (pc :: pcs)

/-- `get_caller_pcs(pcs)`. -/
def getCallerPcs (m : Memory) (ebp : Word) : Mon (List Word) := callerPcs m 10 ebp

/-- The body of the loop of `spin_unlock` that prints `pcs[i]`. -/
def reportPc (B : Boot) (linked : UserStabData) (cpu : ℕ) (rodata : List Byte → Word) (pc : Word)
    (σ : State) : Mon State := do
  let (r, info, σ) ← (debuginfoEip B linked cpu pc σ).translate .debug .debug
  let m := cpuMemory σ cpu
  if 0 ≤ r then do
    Mon.print m "  %08x %s:%d: %.*s+%x\n" [pc, info.eipFile.address rodata, info.eipLine,
      info.eipFnNamelen, info.eipFnName.address rodata, pc - info.eipFnAddr]
    pure σ
  else do
    Mon.print m "  %08x\n" [pc]
    pure σ

/-- `for (i = 0; i < 10 && pcs[i]; i++)`. -/
def reportPcs (B : Boot) (linked : UserStabData) (cpu : ℕ) (rodata : List Byte → Word) :
    List Word → State → Mon State
  | [], σ => pure σ
  | pc :: pcs, σ =>
    if pc = 0#32 then pure σ
    else do
      let σ ← reportPc B linked cpu rodata pc σ
      reportPcs B linked cpu rodata pcs σ

/-- What `spin_unlock(lk)` does on a processor that does not hold the lock, up to its `panic`.
`name`, `lkCpu` and `pcs` are those of the lock; `cpu_id` is the first byte of a
`struct CpuInfo`. -/
def unlockReport (B : Boot) (linked : UserStabData) (cpu : ℕ) (rodata : List Byte → Word)
    (cpunum name lkCpu : Word) (pcs : List Word) (σ : State) : Mon State := do
  let m := cpuMemory σ cpu
  let id ← Mon.loadByte m lkCpu
  Mon.print m "CPU %d cannot release %s: held by CPU %d\nAcquired at:"
    [cpunum, name, id.setWidth 32]
  reportPcs B linked cpu rodata pcs σ

end Jos
