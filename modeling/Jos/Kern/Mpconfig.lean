import Jos.Kern.Pmap
import Jos.Lib.Printfmt
import Jos.Library.ByteStack

/-!
# The multiprocessor configuration table

`kern/mpconfig.c`: the search for the table the firmware leaves in memory, its validation, and
`mp_init`, which numbers the processors it lists.

* `m` is the memory of the machine as the kernel sees it above `KERNBASE`. It does not hold the
  variables that `mp_init` writes.
* A `struct CpuInfo *` is the index `c - cpus`; an index that is not below `NCPU` is memory after
  the array.
* A call of `cprintf` is recorded with its format and arguments. The port writes that leave PIC
  mode are left out.

Two ghost fields record what the walk of the table does: the addresses of the bytes of table
entries that it reads, and the elements of `cpus` that are written.
-/

namespace Jos

/-- `NCPU`, the number of elements of `cpus`. -/
def ncpuMax : ℕ := 8

/-- The values of `cpu_status`. -/
inductive CpuStatus where
  | unused
  | started
  | halted
deriving DecidableEq, Repr

/-- The fields of a `struct CpuInfo` that `mp_init` writes. -/
structure MpCpu where
  cpuId : Byte := 0#8
  cpuStatus : CpuStatus := .unused
deriving DecidableEq, Repr

/-- A call of `cprintf`. -/
abbrev Message := String × List Word

/-! ### Memory -/

/-- The `n` bytes at `a`. -/
def bytesAt (m : Word → Byte) (a : Word) (n : ℕ) : List Byte :=
  (List.range n).map fun i => m (a + BitVec.ofNat 32 i)

/-- `sum(addr, len)`. -/
def sum (m : Word → Byte) (addr : Word) (len : ℕ) : Byte :=
  ((bytesAt m addr len).foldl (fun s b => s + b.setWidth 32) 0#32).setWidth 8

/-! ### The search -/

/-- The loop of `mpsearch1`, over the `struct mp`s that are left. -/
def mpsearch1Loop (m : Word → Byte) : ℕ → Word → Option Word
  | 0, _ => none
  | n + 1, mp =>
    if bytesAt m mp 4 = text "_MP_" ∧ sum m mp 16 = 0#8 then some mp
    else mpsearch1Loop m n (mp + 16#32)

/-- `mpsearch1(a, len)`. -/
def mpsearch1 (B : Boot) (m : Word → Byte) (a len : Word) : Except Panic (Option Word) := do
  let mp ← kaddr B a
  let fin ← kaddr B (a + len)
  return mpsearch1Loop m ((fin.toNat - mp.toNat + 15) / 16) mp

/-- `mpsearch()`. -/
def mpsearch (B : Boot) (m : Word → Byte) : Except Panic (Option Word) := do
  let bda ← kaddr B (0x40#32 <<< 4)
  let p : Word := (load16 m (bda + 0x0E#32)).setWidth 32
  -- the EBDA if there is one, else the last kilobyte of base memory
  let mp ←
    if p ≠ 0#32 then mpsearch1 B m (p <<< 4) 1024#32
    else
      let p : Word := (load16 m (bda + 0x13#32)).setWidth 32 * 1024#32
      mpsearch1 B m (p - 1024#32) 1024#32
  match mp with
  | some mp => return some mp
  -- and then the BIOS ROM
  | none => mpsearch1 B m 0xF0000#32 0x10000#32

/-! ### The header -/

/-- `conf->length`. -/
def confLength (m : Word → Byte) (conf : Word) : ℕ := (load16 m (conf + 4#32)).toNat
/-- `conf->version`. -/
def confVersion (m : Word → Byte) (conf : Word) : Byte := m (conf + 6#32)
/-- `conf->entry`. -/
def confEntry (m : Word → Byte) (conf : Word) : ℕ := (load16 m (conf + 34#32)).toNat
/-- `conf->lapicaddr`. -/
def confLapicaddr (m : Word → Byte) (conf : Word) : Word := load32 m (conf + 36#32)
/-- `conf->xlength`. -/
def confXlength (m : Word → Byte) (conf : Word) : ℕ := (load16 m (conf + 40#32)).toNat
/-- `conf->xchecksum`. -/
def confXchecksum (m : Word → Byte) (conf : Word) : Byte := m (conf + 42#32)
/-- `conf->entries`. -/
def confEntries (conf : Word) : Word := conf + 44#32

/-- `mpconfig(&mp)`: the two structures, if the table is accepted, and what is printed. -/
def mpconfig (B : Boot) (m : Word → Byte) :
    Except Panic (Option (Word × Word) × List Message) := do
  match ← mpsearch B m with
  | none => return (none, [])
  | some mp =>
    let physaddr := load32 m (mp + 4#32)
    -- a default configuration is not supported
    if physaddr = 0#32 ∨ m (mp + 11#32) ≠ 0#8 then
      return (none, [("SMP: Default configurations not implemented\n", [])])
    else
      let conf ← kaddr B physaddr
      if bytesAt m conf 4 ≠ text "PCMP" then
        return (none, [("SMP: Incorrect MP configuration table signature\n", [])])
      else if sum m conf (confLength m conf) ≠ 0#8 then
        return (none, [("SMP: Bad MP configuration checksum\n", [])])
      else if confVersion m conf ≠ 1#8 ∧ confVersion m conf ≠ 4#8 then
        return (none,
          [("SMP: Unsupported MP version %d\n", [(confVersion m conf).setWidth 32])])
      else
        let ext : Word := (sum m (conf + BitVec.ofNat 32 (confLength m conf))
          (confXlength m conf)).setWidth 32
        if (ext + (confXchecksum m conf).setWidth 32) &&& 0xFF#32 ≠ 0#32 then
          return (none, [("SMP: Bad MP configuration extended checksum\n", [])])
        else return (some (mp, conf), [])

/-! ### `mp_init` -/

/-- The variables of `kern/mpconfig.c`, what has been printed, and the record of reads and
writes. -/
structure MpState where
  cpus : ℕ → MpCpu
  /-- `bootcpu - cpus`. -/
  bootcpu : ℕ := 0
  ismp : Bool := false
  ncpu : ℕ := 0
  lapicaddr : Word := 0#32
  console : List Message := []
  entryReads : List Word := []
  cpuWrites : List ℕ := []

namespace MpState

/-- `cprintf(fmt, ...)`. -/
def say (s : MpState) (fmt : String) (args : List Word) : MpState :=
  { s with console := s.console ++ [(fmt, args)] }

/-- A byte of a table entry is read. -/
def readEntry (s : MpState) (a : Word) : MpState := { s with entryReads := s.entryReads ++ [a] }

/-- A field of element `i` of `cpus` is written. -/
def writeCpu (s : MpState) (i : ℕ) (f : MpCpu → MpCpu) : MpState :=
  { s with cpus := Function.update s.cpus i (f (s.cpus i)), cpuWrites := s.cpuWrites ++ [i] }

end MpState

/-- `MPPROC`. -/
def mpproc : Byte := 0#8
/-- `MPBUS`. -/
def mpbus : Byte := 1#8
/-- `MPIOAPIC`. -/
def mpioapic : Byte := 2#8
/-- `MPIOINTR`. -/
def mpiointr : Byte := 3#8
/-- `MPLINTR`. -/
def mplintr : Byte := 4#8
/-- `MPPROC_BOOT`. -/
def mpprocBoot : Byte := 2#8

/-- `sizeof(struct mpproc)`. -/
def sizeofMpproc : ℕ := 20

/-- `if (proc->flags & MPPROC_BOOT) bootcpu = &cpus[ncpu]`, for the entry at `p`. -/
def mpNoteBoot (m : Word → Byte) (p : Word) (s : MpState) : MpState :=
  let s := s.readEntry (p + 3#32)
  if m (p + 3#32) &&& mpprocBoot ≠ 0#8 then { s with bootcpu := s.ncpu } else s

/-- A processor entry at `p`. The boot processor is noted before the array is found to be
full. -/
def mpAddProc (m : Word → Byte) (p : Word) (s : MpState) : MpState :=
  let s := mpNoteBoot m p s
  if s.ncpu < ncpuMax then
    let s := s.writeCpu s.ncpu fun c => { c with cpuId := BitVec.ofNat 8 s.ncpu }
    { s with ncpu := s.ncpu + 1 }
  else
    (s.readEntry (p + 1#32)).say "SMP: too many CPUs, CPU %d disabled\n"
      [(m (p + 1#32)).setWidth 32]

/-- The loop of `mp_init`, over the entries that are left. An unknown entry ends it. -/
def mpWalk (m : Word → Byte) : ℕ → Word → MpState → MpState
  | 0, _, s => s
  | n + 1, p, s =>
    let s := s.readEntry p
    if m p = mpproc then mpWalk m n (p + BitVec.ofNat 32 sizeofMpproc) (mpAddProc m p s)
    else if m p = mpbus ∨ m p = mpioapic ∨ m p = mpiointr ∨ m p = mplintr then
      mpWalk m n (p + 8#32) s
    else
      -- nothing says how long an unknown entry is, so the loop ends
      let s := s.say "mpinit: unknown config type %x\n" [(m p).setWidth 32]
      { s with ismp := false }

/-- The end of `mp_init`, after the loop. -/
def mpFinish (m : Word → Byte) (mp : Word) (s : MpState) : MpState :=
  let s := s.writeCpu s.bootcpu fun c => { c with cpuStatus := .started }
  if s.ismp = false then
    -- what the loop has found is not used, but the boot processor's element stays marked
    let s := { s with ncpu := 1, lapicaddr := 0#32 }
    s.say "SMP: configuration not found, SMP disabled\n" []
  else
    let s := s.say "SMP: CPU %d found %d CPU(s)\n"
      [(s.cpus s.bootcpu).cpuId.setWidth 32, BitVec.ofNat 32 s.ncpu]
    if m (mp + 12#32) ≠ 0#8 then
      s.say "SMP: Setting IMCR to switch from PIC mode to symmetric I/O mode\n" []
    else s

/-- `mp_init()`, called once with its variables zero. `cpus` is the array and the memory after
it. -/
def mpInit (B : Boot) (m : Word → Byte) (cpus : ℕ → MpCpu) : Except Panic MpState := do
  let (found, said) ← mpconfig B m
  let s : MpState := { cpus := cpus, console := said }
  match found with
  | none => return s
  | some (mp, conf) =>
    let s := { s with ismp := true, lapicaddr := confLapicaddr m conf }
    return mpFinish m mp (mpWalk m (confEntry m conf) (confEntries conf) s)

end Jos
