import Jos.Kern.Init

/-!
# Processors that start each other

`boot_aps` of `kern/init.c` once more, this time one access at a time, with the processors that it
starts: `mpentry.S` and `mp_main`. They share `mpentry_kstack` and the `cpu_status` of each
element of `cpus`, and interrupts are on their way to a processor until it takes them.

The processors are told apart by their APIC ids; `self` is the number of the one that runs
`boot_aps`. The code at `MPENTRY_PADDR` is the copy of `mpentry.S`. In `mp_main` a processor calls
`lapic_init`, which panics if it cannot map the local APIC, so `mp_main` may come to the store of
`CPU_STARTED` or not; `cpunum` is the APIC id behind that.
-/

namespace Jos

/-- `KSTKSIZE`. -/
def kstksize : ℕ := 8 * pgsize.toNat

/-- `percpu_kstacks[c] + KSTKSIZE`, for `percpu_kstacks` at `kstacks`. -/
def percpuKstackTop (kstacks : Word) (c : ℕ) : Word :=
  kstacks + BitVec.ofNat 32 (c * kstksize + kstksize)

/-! ### Interrupts -/

/-- An interrupt that one processor sends to another. -/
inductive Ipi where
  | init
  /-- The end of an INIT, which does nothing. -/
  | deassert
  | startup (vector : Byte)
deriving DecidableEq, Repr

/-- What the write of `value` to `ICRLO` sends, for the delivery modes that are used here. -/
def ipiOf (value : Word) : Option Ipi :=
  if value &&& 0x700#32 = icrInit then
    some (if value &&& icrAssert ≠ 0#32 then .init else .deassert)
  else if value &&& 0x700#32 = icrStartup then some (.startup (value.setWidth 8))
  else none

/-- Where a processor is that does not run `boot_aps`. -/
inductive ApState where
  /-- Where the firmware has left it. -/
  | parked
  /-- It waits for a startup interrupt. -/
  | waiting
  /-- It runs the code at `addr`, and has no stack yet. -/
  | entry (addr : Word)
  /-- It is in `mp_main`, on the stack that it has loaded. -/
  | setup (esp : Word)
  /-- It has stored `CPU_STARTED`. -/
  | started (esp : Word)
  /-- It has panicked in `mp_main`. -/
  | panicked (esp : Word)
deriving DecidableEq, Repr

/-- What an interrupt does to a processor. An INIT resets it; a startup interrupt counts only
behind an INIT. -/
def ApState.receive : ApState → Ipi → ApState
  | _, .init => .waiting
  | ap, .deassert => ap
  | .waiting, .startup vector => .entry (vector.setWidth 32 <<< 12)
  | ap, .startup _ => ap

/-! ### `boot_aps` -/

/-- Where `boot_aps` is. -/
inductive BspPc where
  /-- At `c < cpus + ncpu`. -/
  | next (c : ℕ)
  /-- In `lapic_startap`, with these writes to go. -/
  | sending (c : ℕ) (ws : List LapicWrite)
  /-- At `while (c->cpu_status != CPU_STARTED)`. -/
  | waiting (c : ℕ)
  | returned
deriving DecidableEq

/-- What the processors share, and where each one is. -/
structure ApBoot where
  /-- `mpentry_kstack`. -/
  mpentryKstack : Word := 0#32
  /-- `cpus[c].cpu_status`. -/
  cpuStatus : ℕ → CpuStatus
  /-- The register `ICRHI` of the processor that runs `boot_aps`. -/
  highWord : Word := 0#32
  /-- What it has written to its local APIC. -/
  writes : List LapicWrite := []
  /-- The interrupts on their way, the oldest first. -/
  inFlight : Byte → List Ipi := fun _ => []
  ap : Byte → ApState := fun _ => .parked
  bsp : BspPc := .next 0

/-- What happens next. -/
inductive BootOp where
  /-- `boot_aps` goes on. -/
  | bsp
  /-- A processor takes an interrupt. -/
  | receive (a : Byte)
  /-- A processor goes on. -/
  | ap (a : Byte)
  /-- A processor panics. -/
  | panic (a : Byte)
deriving DecidableEq

/-- `lapicw(index, value)`. -/
def ApBoot.lapicw (s : ApBoot) (w : LapicWrite) : ApBoot :=
  let s : ApBoot := { s with writes := s.writes ++ [w] }
  if w.1 = icrhi then { s with highWord := w.2 }
  else if w.1 = icrlo then
    let dest := (s.highWord >>> 24).setWidth 8
    { s with
      inFlight := Function.update s.inFlight dest (s.inFlight dest ++ (ipiOf w.2).toList) }
  else s

section

variable (kstacks : Word) (self : ℕ) (mp : MpState)

/-- `boot_aps` goes on. -/
def bspStep (s : ApBoot) : Option ApBoot :=
  match s.bsp with
  | .next c =>
    if c < mp.ncpu then
      if c = self then some { s with bsp := .next (c + 1) }
      else some { s with
        mpentryKstack := percpuKstackTop kstacks c
        bsp := .sending c (lapicStartap (mp.cpus c).cpuId mpentryPaddr) }
    else some { s with bsp := .returned }
  | .sending c [] => some { s with bsp := .waiting c }
  | .sending c (w :: ws) => some { s.lapicw w with bsp := .sending c ws }
  | .waiting c => some (if s.cpuStatus c = .started then { s with bsp := .next (c + 1) } else s)
  | .returned => none

/-- `mpentry.S` and `mp_main`: processor `a` goes on. -/
def apStep (a : Byte) (s : ApBoot) : Option ApBoot :=
  match s.ap a with
  | .entry addr =>
    -- movl mpentry_kstack, %esp
    if addr = mpentryPaddr then
      some { s with ap := Function.update s.ap a (.setup s.mpentryKstack) }
    else none
  | .setup esp =>
    -- xchg(&thiscpu->cpu_status, CPU_STARTED)
    some { s with
      ap := Function.update s.ap a (.started esp)
      cpuStatus := Function.update s.cpuStatus a.toNat .started }
  | _ => none

/-- One step of one processor. -/
def bootStep (s : ApBoot) : BootOp → Option ApBoot
  | .bsp => bspStep kstacks self mp s
  | .receive a =>
    match s.inFlight a with
    | [] => none
    | ipi :: ipis => some { s with
        inFlight := Function.update s.inFlight a ipis
        ap := Function.update s.ap a ((s.ap a).receive ipi) }
  | .ap a => apStep a s
  | .panic a =>
    match s.ap a with
    | .setup esp => some { s with ap := Function.update s.ap a (.panicked esp) }
    | _ => none

/-- When `boot_aps` is called. -/
def apBootInit : ApBoot := { cpuStatus := fun c => (mp.cpus c).cpuStatus }

end

end Jos
