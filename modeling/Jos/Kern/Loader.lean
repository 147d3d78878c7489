import Jos.Inc.Elf
import Jos.Kern.Syscall
import Jos.Library.Logged

/-!
# Loading a program

`region_alloc`, `load_icode` and `env_create` of `kern/env.c`.

While the segments of a program are loaded, the page directory of the new environment is in `cr3`,
so that `memcpy` and `memset` can write to the addresses of the segments. Such a write goes through
the page tables and faults when the page is not mapped or not writable.

The program is whatever is in memory from `binary` on. `load_icode` reads a field of a header when
it needs it, some of them three times, and each time from memory as it is by then: what it has
loaded before may lie where the next header is. Its run is a log of what it does for the headers
(`LoadAction`).

* The data of the kernel is kept apart from the frames of `mem`. What the loader finds where that
  data lies is a parameter (`Variables`). A write there changes `mem` only.
* `memcpy` is `memmove`. It is taken byte by byte, also where the code copies words.
-/

namespace Jos

/-! ### Bytes in frames -/

/-- A word with its byte `k` replaced. -/
def withByte (w : Word) (k : ℕ) (b : Byte) : Word :=
  (w &&& ~~~(0xFF#32 <<< (8 * k))) ||| (b.setWidth 32 <<< (8 * k))

/-- Write one byte of a frame. -/
def State.setByte (σ : State) (f off : ℕ) (b : Byte) : State :=
  let i := Fin.ofNat 1024 (off / 4)
  σ.setWord f i (withByte (σ.mem f i) (off % 4) b)

/-- Read one byte of a frame. -/
def State.frameByte (σ : State) (f off : ℕ) : Byte :=
  byteOf (σ.mem f (Fin.ofNat 1024 (off / 4))) (off % 4)

/-- The bytes of the kernel's own data: in state `σ`, byte `off` of frame `f`, if it is one. -/
abbrev Variables := State → ℕ → ℕ → Option Byte

/-- A byte of physical memory. -/
def kernelByte (V : Variables) (σ : State) (f off : ℕ) : Byte :=
  (V σ f off).getD (σ.frameByte f off)

/-! ### Accesses of the kernel -/

/-- What the kernel reaches at `va` through the page directory in frame `d`: the frame, and whether
it may be written. `CR0_WP` is set, so `PTE_W` counts, and at both levels. `KADDR` is taken to
reach physical memory: from `KERNBASE` on there is something also where nothing is mapped. -/
def kernelAccess (σ : State) (d : ℕ) (va : Word) : Option (ℕ × Bool) :=
  match x86Walk σ d (pdx va) (ptx va) with
  | some (perm, perm', f) => some (f, perm.getLsbD 1 && perm'.getLsbD 1)
  | none => if kernbase ≤ va then some (frameAt va, true) else none

/-- `*(uint8_t *)va` on processor `cpu`. -/
def loadByte (V : Variables) (cpu : ℕ) (va : Word) (σ : State) : Except Panic Byte :=
  match kernelAccess σ (pgnum (σ.cpus cpu).cr3) va with
  | none => .error ⟨"kernel page fault"⟩
  | some (f, _) => .ok (kernelByte V σ f (pgoff va))

/-- The value of the `n` bytes at `va`. -/
def loadValue (V : Variables) (cpu : ℕ) : ℕ → Word → State → Except Panic ℕ
  | 0, _, _ => .ok 0
  | n + 1, va, σ => do
    let b ← loadByte V cpu va σ
    let v ← loadValue V cpu n (va + 1#32) σ
    return b.toNat + 256 * v

/-- `*(uint32_t *)va`. -/
def loadWord (V : Variables) (cpu : ℕ) (va : Word) (σ : State) : Except Panic Word := do
  let v ← loadValue V cpu 4 va σ
  return BitVec.ofNat 32 v

/-- `*(uint8_t *)va = b`. -/
def storeByte (cpu : ℕ) (va : Word) (b : Byte) (σ : State) : Except Panic State :=
  match kernelAccess σ (pgnum (σ.cpus cpu).cr3) va with
  | some (f, true) => .ok (σ.setByte f (pgoff va) b)
  | _ => .error ⟨"kernel page fault"⟩

/-- The bytes that are left go to `va` and behind. -/
def storeBytes (cpu : ℕ) : List Byte → Word → State → Except Panic State
  | [], _, σ => .ok σ
  | b :: bs, va, σ => do
    let σ ← storeByte cpu va b σ
    storeBytes cpu bs (va + 1#32) σ

/-- `memset(va, 0, n)`. -/
def clearBytes (cpu : ℕ) (va n : Word) (σ : State) : Except Panic State :=
  storeBytes cpu (List.replicate n.toNat 0#8) va σ

/-- The loop of `memmove` from the first byte on, with `n` bytes left. -/
def memmoveUp (V : Variables) (cpu : ℕ) : ℕ → Word → Word → State → Except Panic State
  | 0, _, _, σ => .ok σ
  | n + 1, dst, src, σ => do
    let b ← loadByte V cpu src σ
    let σ ← storeByte cpu dst b σ
    memmoveUp V cpu n (dst + 1#32) (src + 1#32) σ

/-- The loop from the last byte on. -/
def memmoveDown (V : Variables) (cpu : ℕ) : ℕ → Word → Word → State → Except Panic State
  | 0, _, _, σ => .ok σ
  | n + 1, dst, src, σ => do
    let b ← loadByte V cpu (src + BitVec.ofNat 32 n) σ
    let σ ← storeByte cpu (dst + BitVec.ofNat 32 n) b σ
    memmoveDown V cpu n dst src σ

/-- The destination begins inside the source. -/
def Overlaps (dst src n : Word) : Prop := src < dst ∧ dst < src + n

instance (dst src n : Word) : Decidable (Overlaps dst src n) := inferInstanceAs (Decidable (_ ∧ _))

/-- `memmove(dst, src, n)`. -/
def memmove (V : Variables) (cpu : ℕ) (dst src n : Word) (σ : State) : Except Panic State :=
  if Overlaps dst src n then memmoveDown V cpu n.toNat dst src σ
  else memmoveUp V cpu n.toNat dst src σ

/-! ### `region_alloc` -/

/-- The pages between the rounded bounds of `region_alloc`. -/
def regionPages (va len : Word) : ℕ :=
  ((roundUp (va + len) pgsize).toNat - (roundDown va pgsize).toNat) / 4096

/-- The loop of `region_alloc`, over the pages that are left. The code of `page_insert`
is not looked at. -/
def regionAllocLoop (B : Boot) (cpu : ℕ) (e : Fin nenv) : ℕ → Word → State → Except Panic State
  | 0, _, σ => .ok σ
  | n + 1, begin, σ => do
    let (p, σ) ← pageAlloc B 0#32 σ
    match p with
    | none => .error ⟨"env region_alloc failed"⟩
    | some p =>
      -- `page_insert` may fail, and the page is lost then
      let (_, σ) ← pageInsert B cpu (σ.envs e).envPgdir p begin (pteW ||| pteU) σ
      regionAllocLoop B cpu e n (begin + pgsize) σ

/-- `region_alloc(e, va, len)`. -/
def regionAlloc (B : Boot) (cpu : ℕ) (e : Fin nenv) (va len : Word) (σ : State) :
    Except Panic State :=
  regionAllocLoop B cpu e (regionPages va len) (roundDown va pgsize) σ

/-! ### `load_icode` -/

/-- What `load_icode` does for a program header. -/
inductive LoadAction where
  /-- `region_alloc(e, va, len)`. -/
  | region (va len : Word)
  /-- `memcpy(dst, src, n)`. -/
  | copy (dst src n : Word)
  /-- `memset(dst, 0, n)`. -/
  | clear (dst n : Word)
deriving DecidableEq, Repr

/-- What an action does. -/
def LoadAction.exec (V : Variables) (B : Boot) (cpu : ℕ) (e : Fin nenv) :
    LoadAction → State → Except Panic State
  | .region va len, σ => regionAlloc B cpu e va len σ
  | .copy dst src n, σ => memmove V cpu dst src n σ
  | .clear dst n, σ => clearBytes cpu dst n σ

/-- A piece of the work of `load_icode`, with a log of its actions. -/
abbrev Load := Logged LoadAction Panic

/-- A piece of work without an action. -/
def Load.quiet {α : Type} (x : Except Panic α) : Load α := ⟨[], x⟩

/-- An action. -/
def Load.act (V : Variables) (B : Boot) (cpu : ℕ) (e : Fin nenv) (a : LoadAction) (σ : State) :
    Load State := ⟨[a], a.exec V B cpu e σ⟩

section LoadIcode

variable (V : Variables) (B : Boot) (cpu : ℕ) (e : Fin nenv) (binary : Word)

/-- The body of `load_icode`'s loop, for the header at `ph`. -/
def loadSegment (ph : Word) (σ : State) : Load State := do
  let type ← Load.quiet (loadWord V cpu ph σ)
  if type = elfProgLoad then
    -- the arguments are evaluated before each call, from the header as it is then
    let memsz ← Load.quiet (loadWord V cpu (ph + 20#32) σ)
    let va ← Load.quiet (loadWord V cpu (ph + 8#32) σ)
    let σ ← Load.act V B cpu e (.region va memsz) σ
    let filesz ← Load.quiet (loadWord V cpu (ph + 16#32) σ)
    let offset ← Load.quiet (loadWord V cpu (ph + 4#32) σ)
    let va ← Load.quiet (loadWord V cpu (ph + 8#32) σ)
    let σ ← Load.act V B cpu e (.copy va (binary + offset) filesz) σ
    let filesz ← Load.quiet (loadWord V cpu (ph + 16#32) σ)
    let memsz ← Load.quiet (loadWord V cpu (ph + 20#32) σ)
    let va ← Load.quiet (loadWord V cpu (ph + 8#32) σ)
    Load.act V B cpu e (.clear (va + filesz) (memsz - filesz)) σ
  else return σ

/-- The loop, with `n` headers left from `ph` on. -/
def loadSegments : ℕ → Word → State → Load State
  | 0, _, σ => return σ
  | n + 1, ph, σ => do
    let σ ← loadSegment V B cpu e binary ph σ
    loadSegments n (ph + 32#32) σ

/-- How many headers there are from `ph` on. Where their end wraps, the loop does not begin. -/
def headerCount (ph : Word) (phnum : ℕ) : ℕ :=
  if ph < ph + BitVec.ofNat 32 (32 * phnum) then phnum else 0

/-- `e->env_tf.tf_eip = env_elf->e_entry`. -/
def setEntry (e : Fin nenv) (entry : Word) (σ : State) : State :=
  σ.setEnv e { σ.envs e with envTf := { (σ.envs e).envTf with tfEip := entry } }

/-- `load_icode(e, binary)`. -/
def loadIcode (σ : State) : Load State := do
  -- the magic number is not looked at
  let phoff ← Load.quiet (loadWord V cpu (binary + 28#32) σ)
  let phnum ← Load.quiet (loadValue V cpu 2 (binary + 44#32) σ)
  let pa ← Load.quiet (paddr (σ.envs e).envPgdir)
  let σ := lcr3 cpu pa σ
  let σ ← loadSegments V B cpu e binary (headerCount (binary + phoff) phnum) (binary + phoff) σ
  -- `e_entry` is read with the new directory still in `cr3`
  let entry ← Load.quiet (loadWord V cpu (binary + 24#32) σ)
  let σ := setEntry e entry σ
  let pa ← Load.quiet (paddr B.kernPgdir)
  let σ := lcr3 cpu pa σ
  -- the page for the stack comes last, on the directory of the kernel
  Load.quiet (regionAlloc B cpu e (ustacktop - pgsize) pgsize σ)

end LoadIcode

/-- `env_create(binary, type)`. The code of `env_alloc` is not looked at, so when it fails `e` is
what the uninitialised variable happens to hold: `uninit` is the slot of `envs` it points to, and
`none` if it points to something that cannot be accessed. -/
def envCreate (V : Variables) (B : Boot) (cpu : ℕ) (uninit : Option (Fin nenv)) (binary : Word)
    (type : EnvType) (σ : State) : Load State := do
  let (_, stored, σ) ← Load.quiet (envAlloc B 0#32 σ)
  match stored.or uninit with
  | none => Load.quiet (.error ⟨"kernel page fault"⟩)
  | some e =>
    let σ := σ.setEnv e { σ.envs e with envType := type }
    loadIcode V B cpu e binary σ

end Jos
