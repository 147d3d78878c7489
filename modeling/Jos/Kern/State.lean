import Jos.Inc.Mmu

/-!
# The kernel state

The data the kernel keeps about physical memory and environments, under the
source's field names (`inc/memlayout.h`, `inc/trap.h`, `inc/env.h`,
`kern/cpu.h`).

* A `struct PageInfo *` is the index of its entry in `pages`, a `struct Env *`
  the index of its slot in `envs`, and a null pointer is `none`.
* Physical memory is a sequence of frames of 1024 words. A kernel pointer is the
  word `KADDR` returned; the kernel's accesses through it are taken to reach
  physical memory, so the frame behind it is `frameAt`.
* `cpus` holds what each processor has of its own: its `cpu_env`, its `cr3`, and
  the translations its TLB has cached.
* `Boot` is what the firmware and the linker fix before `mem_init` runs, with
  the facts about a machine that the kernel relies on. It never changes, so it is
  a parameter of the code rather than part of the state.

`panic` does not return; a function that may call it returns an `Except Panic`.
-/

namespace Jos

/-- A call of `panic`, with its message. -/
structure Panic where
  text : String
deriving DecidableEq, Repr

/-- A computation that returned hands its value to the next one. -/
@[simp] theorem ok_bind {ε α β : Type} (a : α) (f : α → Except ε β) :
    (Except.ok a >>= f) = f a := rfl

/-- A computation returns one thing. -/
theorem ok_unique {ε α : Type} {x : Except ε α} {a b : α} (h : x = .ok a) (h' : x = .ok b) :
    a = b :=
  Except.ok.inj (h.symm.trans h')

/-- A computation returns one value, in one state. -/
theorem ok_unique_pair {ε α β : Type} {x : Except ε (α × β)} {a a' : α} {b b' : β}
    (h : x = .ok (a, b)) (h' : x = .ok (a', b')) : a = a' ∧ b = b' :=
  Prod.mk.inj (ok_unique h h')

/-- Inverting a check that returned. -/
theorem guard_eq_ok {ε α : Type} {p : Prop} [Decidable p] {e : ε} {a b : α} :
    (if p then .error e else .ok a : Except ε α) = .ok b ↔ ¬p ∧ b = a := by
  split
  · next hp =>
    exact iff_of_false (fun h => by cases h) fun h => h.1 hp
  · next hp =>
    rw [Except.ok.injEq, eq_comm]
    exact (and_iff_right hp).symm

/-- Inverting a sequence of two computations that returned. -/
theorem bind_eq_ok {ε α β : Type} {x : Except ε α} {f : α → Except ε β} {b : β} :
    (x >>= f) = .ok b ↔ ∃ a, x = .ok a ∧ f a = .ok b := by
  cases x with
  | error e =>
    -- neither side can hold: nothing was returned
    constructor
    · intro h
      cases h
    · rintro ⟨a, h, -⟩
      cases h
  | ok a => simp

/-- A `struct PageInfo`. -/
structure PageInfo where
  /-- Next page on the free list. -/
  ppLink : Option ℕ
  /-- The count of pointers to this page; it is a `uint16_t`. -/
  ppRef : BitVec 16
deriving DecidableEq, Repr

/-- A `struct PushRegs`: the registers as pushed by `pusha`. -/
structure PushRegs where
  regEdi : Word := 0
  regEsi : Word := 0
  regEbp : Word := 0
  regOesp : Word := 0
  regEbx : Word := 0
  regEdx : Word := 0
  regEcx : Word := 0
  regEax : Word := 0
deriving DecidableEq, Repr

/-- A `struct Trapframe`. -/
structure Trapframe where
  tfRegs : PushRegs := {}
  tfEs : BitVec 16 := 0
  tfDs : BitVec 16 := 0
  tfTrapno : Word := 0
  tfErr : Word := 0
  tfEip : Word := 0
  tfCs : BitVec 16 := 0
  tfEflags : Word := 0
  tfEsp : Word := 0
  tfSs : BitVec 16 := 0
deriving DecidableEq, Repr

/-- The values of `env_status`. -/
inductive EnvStatus where
  | free
  | dying
  | runnable
  | running
  | notRunnable
deriving DecidableEq, Repr

/-- `enum EnvType`. -/
inductive EnvType where
  | user
deriving DecidableEq, Repr

/-- A `struct Env`, less what an IPC transfers (`env_ipc_dstva` and the fields
after it), which no modelled function uses. -/
structure Env where
  envTf : Trapframe := {}
  envLink : Option (Fin nenv) := none
  envId : Word := 0
  envParentId : Word := 0
  envType : EnvType := .user
  envStatus : EnvStatus := .free
  envRuns : Word := 0
  envCpunum : Word := 0
  /-- Kernel virtual address of the page directory; `0` is the null pointer. -/
  envPgdir : Word := 0
  envPgfaultUpcall : Word := 0
  envIpcRecving : Bool := false
deriving DecidableEq, Repr

/-- What one processor has of its own: the `cpu_env` of its `struct CpuInfo`, the
page directory loaded in its `cr3` (a physical address), and the pairs of virtual
page number and entry its TLB has cached. -/
structure CpuInfo where
  cpuEnv : Option (Fin nenv) := none
  cr3 : Word := 0
  tlb : List (ℕ × Word) := []
deriving DecidableEq, Repr

/-- The kernel's mutable state. -/
structure State where
  pages : ℕ → PageInfo
  pageFreeList : Option ℕ
  mem : ℕ → Fin 1024 → Word
  envs : Fin nenv → Env
  envFreeList : Option (Fin nenv)
  cpus : ℕ → CpuInfo
  userMemCheckAddr : Word

namespace State

variable (σ : State)

/-- `pp->pp_link` of every page. -/
def link (p : ℕ) : Option ℕ := (σ.pages p).ppLink

/-- `pp->pp_ref` of every page. -/
def ref (p : ℕ) : BitVec 16 := (σ.pages p).ppRef

/-- Write `pp->pp_link`. -/
def setLink (p : ℕ) (v : Option ℕ) : State :=
  { σ with pages := Function.update σ.pages p { σ.pages p with ppLink := v } }

/-- Write `pp->pp_ref`. -/
def setRef (p : ℕ) (v : BitVec 16) : State :=
  { σ with pages := Function.update σ.pages p { σ.pages p with ppRef := v } }

/-- Write one word of a frame. -/
def setWord (f : ℕ) (i : Fin 1024) (w : Word) : State :=
  { σ with mem := Function.update σ.mem f (Function.update (σ.mem f) i w) }

/-- Write a whole frame. -/
def setFrame (f : ℕ) (c : Fin 1024 → Word) : State :=
  { σ with mem := Function.update σ.mem f c }

/-- Write a slot of `envs`. -/
def setEnv (e : Fin nenv) (v : Env) : State :=
  { σ with envs := Function.update σ.envs e v }

/-- Write what processor `cpu` has of its own. -/
def setCpu (cpu : ℕ) (v : CpuInfo) : State :=
  { σ with cpus := Function.update σ.cpus cpu v }

/-- `curenv` on processor `cpu`: `cpus[cpunum()].cpu_env`. -/
def curenv (cpu : ℕ) : Option (Fin nenv) := (σ.cpus cpu).cpuEnv

end State

/-- The frame a kernel pointer reaches: `KADDR` adds `KERNBASE` to a physical
address. -/
def frameAt (kva : Word) : ℕ := pgnum (kva - kernbase)

@[simp] theorem frameAt_add_kernbase (pa : Word) : frameAt (pa + kernbase) = pgnum pa := by
  rw [frameAt, BitVec.add_sub_cancel]

/-! ### The boot-time memory layout -/

/-- `boot_alloc(n)`: the returned address and the new value of its static
`nextfree`, which is null before the first call. -/
def bootAlloc (kernEnd nextfree n : Word) : Word × Word :=
  let nextfree := if nextfree = 0#32 then roundUp kernEnd pgsize else nextfree
  if n = 0#32 then (nextfree, nextfree)
  else (nextfree, roundUp (nextfree + n) pgsize)

/-- `sizeof(struct PageInfo)`. -/
def sizeofPageInfo : ℕ := 8

/-- `sizeof(struct Env)`. -/
def sizeofEnv : ℕ := 124

/-- What `i386_detect_memory` sets: `npages` and `npages_basemem`. -/
structure MemSize where
  npages : ℕ
  npagesBasemem : ℕ
deriving DecidableEq, Repr

/-- What the firmware and the linker give the kernel: the amount of physical and
of base memory in pages, and the end of the kernel image. Physical addresses are
32 bits wide, base memory ends below the I/O hole, the image is loaded above
`EXTPHYSMEM`, and the arrays `mem_init` allocates fit into memory and below the
top of the address space (`boot_alloc` does not check).

`KADDR` is taken to reach physical memory. For the first 65536 pages the kernel has
addresses above `KERNBASE`; those of the pages beyond wrap around (`MemSize.lossless_iff`). -/
structure Boot extends MemSize where
  kernEnd : Word
  npages_le : npages ≤ 2 ^ 20
  basemem_le : npagesBasemem ≤ 160
  end_ge : 0xF0100000 ≤ kernEnd.toNat
  fits_addr : (kernEnd.toNat + 4095) / 4096 * 4096 +
    (sizeofPageInfo * npages + 4095) / 4096 * 4096 + 4096 + sizeofEnv * nenv < 2 ^ 32
  fits_mem : (kernEnd.toNat + 4095) / 4096 * 4096 +
    (sizeofPageInfo * npages + 4095) / 4096 * 4096 + 4096 + sizeofEnv * nenv ≤
      0xF0000000 + npages * 4096

namespace Boot

variable (B : Boot)

/-- `pages = boot_alloc(sizeof(struct PageInfo) * npages)`. -/
def allocPages : Word × Word :=
  bootAlloc B.kernEnd 0#32 (BitVec.ofNat 32 (sizeofPageInfo * B.npages))

/-- `kern_pgdir = boot_alloc(PGSIZE)`. -/
def allocPgdir : Word × Word := bootAlloc B.kernEnd B.allocPages.2 pgsize

/-- `envs = boot_alloc(sizeof(struct Env) * NENV)`. -/
def allocEnvs : Word × Word :=
  bootAlloc B.kernEnd B.allocPgdir.2 (BitVec.ofNat 32 (sizeofEnv * nenv))

/-- The kernel pointer `pages`. -/
def pages : Word := B.allocPages.1

/-- The kernel pointer `kern_pgdir`. -/
def kernPgdir : Word := B.allocPgdir.1

/-- The kernel pointer `envs`. -/
def envs : Word := B.allocEnvs.1

/-- `boot_alloc(0)` once the arrays are allocated. -/
def bootFree : Word := (bootAlloc B.kernEnd B.allocEnvs.2 0#32).1

/-- The frame of `kern_pgdir`. -/
def kernFrame : ℕ := frameAt B.kernPgdir

end Boot

end Jos
