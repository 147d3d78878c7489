import Jos.Kern.Mpconfig

/-!
# Starting the other processors

`boot_aps` of `kern/init.c`, with `lapic_startap` and `cpunum` of `kern/lapic.c` and the part of
`mp_main` that `boot_aps` waits for.

A processor is told apart by its local APIC. The interrupts that a processor sends are its writes
to the interrupt command register, of which `boot_aps` makes a list. The entry code in low memory,
the warm reset vector and the kernel stack of the new processor are left out.
-/

namespace Jos

/-- A local APIC, as an array of registers. -/
abbrev Lapic := ℕ → Word

/-- `ID`. -/
def lapicID : ℕ := 0x0020 / 4
/-- `ICRLO`. -/
def icrlo : ℕ := 0x0300 / 4
/-- `ICRHI`. -/
def icrhi : ℕ := 0x0310 / 4

/-- `INIT`. -/
def icrInit : Word := 0x00000500#32
/-- `STARTUP`. -/
def icrStartup : Word := 0x00000600#32
/-- `ASSERT`. -/
def icrAssert : Word := 0x00004000#32
/-- `LEVEL`. -/
def icrLevel : Word := 0x00008000#32

/-- The pointer `lapic` after `lapic_init`, which maps the local APIC if there is an address for
it. -/
def lapicInit (lapicaddr : Word) (regs : Lapic) : Option Lapic :=
  if lapicaddr = 0#32 then none else some regs

/-- `cpunum()`. -/
def cpunum : Option Lapic → ℕ
  | some lapic => (lapic lapicID >>> 24).toNat
  | none => 0

/-- `lapicw(index, value)`. -/
abbrev LapicWrite := ℕ × Word

/-- `lapic_startap(apicid, addr)`. -/
def lapicStartap (apicid : Byte) (addr : Word) : List LapicWrite :=
  [(icrhi, apicid.setWidth 32 <<< 24),
    (icrlo, icrInit ||| icrLevel ||| icrAssert),
    (icrlo, icrInit ||| icrLevel)] ++
  (List.replicate 2
    [(icrhi, apicid.setWidth 32 <<< 24), (icrlo, icrStartup ||| addr >>> 12)]).flatten

/-- The loop of `boot_aps`, over the elements of `cpus` that are left, on the processor with
number `self`. A processor whose APIC id is in `answers` runs `mp_main` when it is started, and
marks its own element of `cpus`; `boot_aps` waits for the element it is at, for ever if no
processor marks it. -/
def bootApsLoop (answers : Byte → Bool) (self : ℕ) : List ℕ → (ℕ → MpCpu) → List LapicWrite
  | [], _ => []
  | c :: cs, cpus =>
    if c = self then bootApsLoop answers self cs cpus
    else
      let id := (cpus c).cpuId
      let cpus := if answers id then
        Function.update cpus id.toNat { cpus id.toNat with cpuStatus := .started } else cpus
      lapicStartap id mpentryPaddr ++
        if (cpus c).cpuStatus = .started then bootApsLoop answers self cs cpus else []

/-- `boot_aps()` on the processor with number `self`. -/
def bootAps (answers : Byte → Bool) (self : ℕ) (s : MpState) : List LapicWrite :=
  bootApsLoop answers self (List.range s.ncpu) s.cpus

end Jos
