import Jos.Kern.Loader
import Jos.Library.Interrupted

/-!
# The kernel with its TLB at work

The functions of `kern/pmap.c` and `kern/env.c` once more, one access at a time. Between
any two accesses the TLB of the processor may cache any translation that the page
directory in `cr3` has at that moment (`Fill`).

* An instruction of the kernel neither sees nor changes the TLB (`instr`), unless it is
  `lcr3` or `invlpg` (`hardware`).
* An access to an address that need not be mapped uses a cached entry for its page, or walks the
  page tables (`Stepwise.Reaches`).
* Code that writes no page table and does not concern the TLB is one step, such as
  `page_lookup` or `page_decref`: what can be cached does not change while it runs.
-/

namespace Jos

/-- Replace what the TLB of `cpu` has cached. -/
def State.setTlb (σ : State) (cpu : ℕ) (l : List (ℕ × Word)) : State :=
  σ.setCpu cpu { σ.cpus cpu with tlb := l }

/-- The processor caches a translation of the page directory in its `cr3`. -/
def Fill (cpu : ℕ) (σ σ' : State) : Prop :=
  ∃ n pte, n < 2 ^ 20 ∧ walkPte σ (pgnum (σ.cpus cpu).cr3) n = some pte ∧
    σ' = σ.setTlb cpu ((n, pte) :: (σ.cpus cpu).tlb)

/-- A piece of kernel code. -/
abbrev Kernel := Interrupted State

/-- A step that the TLB has nothing to do with. -/
def instr {α : Type} (cpu : ℕ) (f : State → Except Panic (α × State)) : Kernel α :=
  Interrupted.atom (Fill cpu) fun σ =>
    (f (σ.setTlb cpu [])).map fun r => (r.1, r.2.setTlb cpu (σ.cpus cpu).tlb)

/-- A step of the processor itself. -/
def hardware (cpu : ℕ) (f : State → Except Panic State) : Kernel Unit :=
  Interrupted.atom (Fill cpu) fun σ => done (f σ)

namespace Stepwise

open Interrupted (compute)

section Steps

variable (cpu : ℕ)

/-- Read something. -/
def read {α : Type} (f : State → α) : Kernel α := instr cpu fun σ => .ok (f σ, σ)

/-- Write something. -/
def write (f : State → State) : Kernel Unit := instr cpu fun σ => .ok ((), f σ)

/-- `if (c) x`. -/
def when (c : Bool) (x : Kernel Unit) : Kernel Unit := if c then x else pure ()

/-- `*pte`. -/
def load (pte : PtePtr) : Kernel Word := read cpu fun σ => σ.load pte

/-- `*pte = w`. -/
def store (pte : PtePtr) (w : Word) : Kernel Unit := write cpu fun σ => σ.store pte w

/-- Write a whole page, word by word. -/
def writePage (kva : Word) (c : Fin 1024 → Word) : Kernel Unit :=
  (List.finRange 1024).forM fun i => store cpu (kva, i) (c i)

def lcr3 (pa : Word) : Kernel Unit := hardware cpu fun σ => .ok (Jos.lcr3 cpu pa σ)

def tlbInvalidate (pgdir va : Word) : Kernel Unit :=
  hardware cpu fun σ => .ok (Jos.tlbInvalidate cpu pgdir va σ)

/-- `pp->pp_ref++`. -/
def incRef (pp : ℕ) : Kernel Unit := write cpu fun σ => σ.incRef pp

def pageFree (pp : ℕ) : Kernel Unit := instr cpu fun σ => done (Jos.pageFree pp σ)

def pageDecref (pp : ℕ) : Kernel Unit := instr cpu fun σ => done (Jos.pageDecref pp σ)

/-- The start of `page_alloc`: take the first page off the list. -/
def unlink (σ : State) : Option ℕ × State :=
  match σ.pageFreeList with
  | none => (none, σ)
  | some page => (some page, { σ.setLink page none with pageFreeList := σ.link page })

end Steps

/-! ### `kern/pmap.c` -/

section Pmap

variable (B : Boot) (cpu : ℕ)

def pageAlloc (allocFlags : Word) : Kernel (Option ℕ) := do
  let page ← instr cpu fun σ => .ok (unlink σ)
  match page with
  | none => return none
  | some page =>
    if allocFlags &&& allocZero ≠ 0#32 then
      let kva ← compute (page2kva B page)
      writePage cpu kva fun _ => 0#32
      return some page
    else return some page

/-- The end of `pgdir_walk`. -/
def walkTable (pde va : Word) : Kernel (Option PtePtr) := do
  let p ← compute (kaddr B (pteAddr pde))
  return some (p, ptx va)

def pgdirWalk (pgdir va : Word) (create : Bool) : Kernel (Option PtePtr) := do
  let pde ← load cpu (pgdir, pdx va)
  if present pde then walkTable B pde va
  else if create then
    let page ← pageAlloc B cpu allocZero
    match page with
    | none => return none
    | some page =>
      incRef cpu page
      store cpu (pgdir, pdx va) (page2pa page ||| pteP ||| pteU ||| pteW)
      let pde ← load cpu (pgdir, pdx va)
      walkTable B pde va
  else return none

def pageLookup (pgdir va : Word) : Kernel (Option (ℕ × PtePtr)) :=
  instr cpu (Jos.pageLookup B pgdir va)

def pageRemove (pgdir va : Word) : Kernel Unit := do
  let found ← pageLookup B cpu pgdir va
  match found with
  | none => return ()
  | some (page, pte) =>
    let w ← load cpu pte
    if present w then
      store cpu pte 0#32
      pageDecref cpu page
      tlbInvalidate cpu pgdir va
    else return ()

/-- `page_insert` once the walk has found the entry `pte` of `va`. -/
def pageInsertAt (pgdir : Word) (pp : ℕ) (va perm : Word) (pte : PtePtr) : Kernel ℤ := do
  incRef cpu pp
  let w ← load cpu pte
  when (present w) (pageRemove B cpu pgdir va)
  store cpu pte (page2pa pp ||| perm ||| pteP)
  return 0

def pageInsert (pgdir : Word) (pp : ℕ) (va perm : Word) : Kernel ℤ := do
  let pte ← pgdirWalk B cpu pgdir va true
  match pte with
  | none => return -eNoMem
  | some pte => pageInsertAt B cpu pgdir pp va perm pte

end Pmap

/-! ### `kern/env.c` -/

section Env

variable (B : Boot) (cpu : ℕ)

def envSetupVm (e : Fin nenv) : Kernel ℤ := do
  let p ← pageAlloc B cpu allocZero
  match p with
  | none => return -eNoMem
  | some p =>
    incRef cpu p
    let pgdir ← compute (page2kva B p)
    write cpu fun σ => σ.setEnv e { σ.envs e with envPgdir := pgdir }
    let template ← read cpu fun σ => σ.mem B.kernFrame
    writePage cpu pgdir template
    let pa ← compute (paddr pgdir)
    store cpu (pgdir, pdx uvpt) (pa ||| pteP ||| pteU)
    return 0

def envAlloc (parentId : Word) : Kernel (ℤ × Option (Fin nenv)) := do
  let e ← read cpu fun σ => σ.envFreeList
  match e with
  | none => return (-eNoFreeEnv, none)
  | some e =>
    let r ← envSetupVm B cpu e
    if r < 0 then return (r, none)
    else
      write cpu fun σ => σ.setEnv e (initEnv (σ.envs e) e parentId)
      write cpu fun σ => { σ with envFreeList := (σ.envs e).envLink }
      return (0, some e)

/-- The body of `env_free`'s inner loop. -/
def unmapPte (pgdir pt : Word) (pdeno pteno : Fin 1024) : Kernel Unit := do
  let w ← load cpu (pt, pteno)
  when (present w) (pageRemove B cpu pgdir (pgaddr pdeno pteno 0#32))

/-- The body of `env_free`'s outer loop. -/
def unmapPde (pgdir : Word) (pdeno : Fin 1024) : Kernel Unit := do
  let pde ← load cpu (pgdir, pdeno)
  if present pde then
    let pt ← compute (kaddr B (pteAddr pde))
    (List.finRange 1024).forM (unmapPte B cpu pgdir pt pdeno)
    store cpu (pgdir, pdeno) 0#32
    let page ← compute (pa2page B (pteAddr pde))
    pageDecref cpu page

def envFree (e : Fin nenv) : Kernel Unit := do
  hardware cpu (switchAway B cpu e)
  let pgdir ← read cpu fun σ => (σ.envs e).envPgdir
  userPdes.forM (unmapPde B cpu pgdir)
  let pa ← compute (paddr pgdir)
  write cpu fun σ => σ.setEnv e { σ.envs e with envPgdir := 0#32 }
  let page ← compute (pa2page B pa)
  pageDecref cpu page
  write cpu fun σ =>
    { σ.setEnv e { σ.envs e with envStatus := .free, envLink := σ.envFreeList } with
      envFreeList := some e }

def envDestroy (e : Fin nenv) : Kernel Unit := do
  let elsewhere ← read cpu fun σ =>
    decide ((σ.envs e).envStatus = .running ∧ σ.curenv cpu ≠ some e)
  if elsewhere then
    write cpu fun σ => σ.setEnv e { σ.envs e with envStatus := .dying }
  else
    envFree B cpu e
    let own ← read cpu fun σ => decide (σ.curenv cpu = some e)
    if own then
      write cpu fun σ => σ.setCurenv cpu none
      hardware cpu (schedYield B cpu)

/-- `env_run(e)` up to the switch of the address space. -/
def takeOver (e : Fin nenv) (σ : State) : State :=
  let σ : State := match σ.curenv cpu with
    | none => σ
    | some c => if (σ.envs c).envStatus = .running then
        σ.setEnv c { σ.envs c with envStatus := .runnable } else σ
  let σ := σ.setCurenv cpu (some e)
  σ.setEnv e { σ.envs e with envStatus := .running, envRuns := (σ.envs e).envRuns + 1#32 }

def envRun (e : Fin nenv) : Kernel Unit := do
  write cpu (takeOver cpu e)
  let pgdir ← read cpu fun σ => (σ.envs e).envPgdir
  let pa ← compute (paddr pgdir)
  lcr3 cpu pa
  write cpu (envPopTf cpu e)

/-- What an access to `va` may reach, and whether it may be written: the page of a cached entry, or
what is in the page tables. Of a cached entry only its own `PTE_W` is looked at. -/
def Reaches (va : Word) (σ : State) (f : ℕ) (writable : Bool) : Prop :=
  (∃ pte, (pgnum va, pte) ∈ (σ.cpus cpu).tlb ∧ f = pgnum (pteAddr pte) ∧
    writable = decide (pte &&& pteW ≠ 0#32)) ∨
  kernelAccess σ (pgnum (σ.cpus cpu).cr3) va = some (f, writable)

/-- `*(uint8_t *)va`. -/
def loadByte (V : Variables) (va : Word) : Kernel Byte := fun σ b σ' =>
  ∃ f w, Relation.ReflTransGen (Fill cpu) σ σ' ∧ Reaches cpu va σ' f w ∧
    b = kernelByte V σ' f (pgoff va)

/-- The value of the `n` bytes at `va`. -/
def loadValue (V : Variables) : ℕ → Word → Kernel ℕ
  | 0, _ => pure 0
  | n + 1, va => do
    let b ← loadByte cpu V va
    let v ← loadValue V n (va + 1#32)
    return b.toNat + 256 * v

/-- `*(uint32_t *)va`. -/
def loadWord (V : Variables) (va : Word) : Kernel Word := do
  let v ← loadValue cpu V 4 va
  return BitVec.ofNat 32 v

/-- `*(uint8_t *)va = b`. -/
def storeByte (va : Word) (b : Byte) : Kernel Unit := fun σ _ σ' =>
  ∃ σ₁ f, Relation.ReflTransGen (Fill cpu) σ σ₁ ∧ Reaches cpu va σ₁ f true ∧
    σ' = σ₁.setByte f (pgoff va) b

/-- The bytes that are left go to `va` and behind. -/
def storeBytes : List Byte → Word → Kernel Unit
  | [], _ => pure ()
  | b :: bs, va => do
    storeByte cpu va b
    storeBytes bs (va + 1#32)

/-- `memset(va, 0, n)`. -/
def clearBytes (va n : Word) : Kernel Unit :=
  storeBytes cpu (List.replicate n.toNat 0#8) va

/-- The loop of `memmove` from the first byte on. -/
def memmoveUp (V : Variables) : ℕ → Word → Word → Kernel Unit
  | 0, _, _ => pure ()
  | n + 1, dst, src => do
    let b ← loadByte cpu V src
    storeByte cpu dst b
    memmoveUp V n (dst + 1#32) (src + 1#32)

/-- The loop from the last byte on. -/
def memmoveDown (V : Variables) : ℕ → Word → Word → Kernel Unit
  | 0, _, _ => pure ()
  | n + 1, dst, src => do
    let b ← loadByte cpu V (src + BitVec.ofNat 32 n)
    storeByte cpu (dst + BitVec.ofNat 32 n) b
    memmoveDown V n dst src

/-- `memmove(dst, src, n)`. -/
def memmove (V : Variables) (dst src n : Word) : Kernel Unit :=
  if Overlaps dst src n then memmoveDown cpu V n.toNat dst src else memmoveUp cpu V n.toNat dst src

/-- The loop of `region_alloc`. -/
def regionAllocLoop (e : Fin nenv) : ℕ → Word → Kernel Unit
  | 0, _ => pure ()
  | n + 1, begin => do
    let p ← pageAlloc B cpu 0#32
    match p with
    | none => compute (.error (⟨"env region_alloc failed"⟩ : Panic))
    | some p =>
      let pgdir ← read cpu fun σ => (σ.envs e).envPgdir
      let _ ← pageInsert B cpu pgdir p begin (pteW ||| pteU)
      regionAllocLoop e n (begin + pgsize)

def regionAlloc (e : Fin nenv) (va len : Word) : Kernel Unit :=
  regionAllocLoop B cpu e (regionPages va len) (roundDown va pgsize)

/-- The body of `load_icode`'s loop, and what it has done. -/
def loadSegment (V : Variables) (e : Fin nenv) (binary ph : Word) : Kernel (List LoadAction) := do
  let type ← loadWord cpu V ph
  if type = elfProgLoad then
    let memsz ← loadWord cpu V (ph + 20#32)
    let va ← loadWord cpu V (ph + 8#32)
    regionAlloc B cpu e va memsz
    let filesz' ← loadWord cpu V (ph + 16#32)
    let offset ← loadWord cpu V (ph + 4#32)
    let va' ← loadWord cpu V (ph + 8#32)
    memmove cpu V va' (binary + offset) filesz'
    let filesz'' ← loadWord cpu V (ph + 16#32)
    let memsz'' ← loadWord cpu V (ph + 20#32)
    let va'' ← loadWord cpu V (ph + 8#32)
    clearBytes cpu (va'' + filesz'') (memsz'' - filesz'')
    return [.region va memsz, .copy va' (binary + offset) filesz',
      .clear (va'' + filesz'') (memsz'' - filesz'')]
  else return []

/-- The loop, with `n` headers left from `ph` on. -/
def loadSegments (V : Variables) (e : Fin nenv) (binary : Word) :
    ℕ → Word → Kernel (List LoadAction)
  | 0, _ => return []
  | n + 1, ph => do
    let first ← loadSegment B cpu V e binary ph
    let rest ← loadSegments V e binary n (ph + 32#32)
    return first ++ rest

def loadIcode (V : Variables) (e : Fin nenv) (binary : Word) : Kernel (List LoadAction) := do
  let phoff ← loadWord cpu V (binary + 28#32)
  let phnum ← loadValue cpu V 2 (binary + 44#32)
  let pgdir ← read cpu fun σ => (σ.envs e).envPgdir
  let pa ← compute (paddr pgdir)
  lcr3 cpu pa
  let actions ← loadSegments B cpu V e binary (headerCount (binary + phoff) phnum) (binary + phoff)
  let entry ← loadWord cpu V (binary + 24#32)
  write cpu (setEntry e entry)
  let pa ← compute (paddr B.kernPgdir)
  lcr3 cpu pa
  regionAlloc B cpu e (ustacktop - pgsize) pgsize
  return actions

end Env

end Stepwise

end Jos
