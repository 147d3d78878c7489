import Jos.Kern.State

/-!
# Physical pages and page tables

The page allocator and the page table operations of `kern/pmap.c`, with the
address conversions of `kern/pmap.h` they are built from. Each function takes the
state and returns the new one; a result that is a C pointer or error code is
returned next to it.

`tlb_invalidate` looks at `curenv`, so the functions that reach it take the
number of the processor they run on.
-/

namespace Jos

/-! ### `kern/pmap.h` -/

/-- `PADDR(kva)`. -/
def paddr (kva : Word) : Except Panic Word :=
  if kva < kernbase then .error ⟨"PADDR called with invalid kva"⟩ else .ok (kva - kernbase)

/-- `ALLOC_ZERO`. -/
def allocZero : Word := 1#32

def page2pa (pp : ℕ) : Word := BitVec.ofNat 32 pp <<< 12

namespace MemSize

variable (M : MemSize)

/-- `KADDR(pa)`. -/
def kaddr (pa : Word) : Except Panic Word :=
  if M.npages ≤ pgnum pa then .error ⟨"KADDR called with invalid pa"⟩ else .ok (pa + kernbase)

def pa2page (pa : Word) : Except Panic ℕ :=
  if M.npages ≤ pgnum pa then .error ⟨"pa2page called with invalid pa"⟩ else .ok (pgnum pa)

def page2kva (pp : ℕ) : Except Panic Word := M.kaddr (page2pa pp)

/-- The body of `page_init`'s loop, where `boot_alloc(0)` returns `bootFree`. -/
def pageInitStep (bootFree : Word) (σ : State) (i : ℕ) : State :=
  let reserve := (σ.setRef i 1#16).setLink i none
  let release := { (σ.setRef i 0#16).setLink i σ.pageFreeList with pageFreeList := some i }
  if i = 0 then reserve
  else if 1 ≤ i ∧ i < M.npagesBasemem then release
  else if (iophysmem / pgsize).toNat ≤ i ∧ i < (extphysmem / pgsize).toNat then reserve
  else if (extphysmem / pgsize).toNat ≤ i ∧ i < ((bootFree - kernbase) / pgsize).toNat then
    reserve
  else release

def pageInit (bootFree : Word) (σ : State) : State :=
  (List.range M.npages).foldl (M.pageInitStep bootFree) σ

end MemSize

def kaddr (B : Boot) : Word → Except Panic Word := B.toMemSize.kaddr

def pa2page (B : Boot) : Word → Except Panic ℕ := B.toMemSize.pa2page

def page2kva (B : Boot) : ℕ → Except Panic Word := B.toMemSize.page2kva

def pageInit (B : Boot) : State → State := B.toMemSize.pageInit B.bootFree

/-! ### The allocator -/

/-- `page_alloc(alloc_flags)`. -/
def pageAlloc (B : Boot) (allocFlags : Word) (σ : State) : Except Panic (Option ℕ × State) :=
  match σ.pageFreeList with
  | none => .ok (none, σ)
  | some page => do
    -- the link is cleared, so that `page_free` can tell
    let σ := { σ.setLink page none with pageFreeList := σ.link page }
    if allocFlags &&& allocZero ≠ 0#32 then
      let kva ← page2kva B page
      return (some page, σ.setFrame (frameAt kva) fun _ => 0#32)
    else
      return (some page, σ)

def pageFree (pp : ℕ) (σ : State) : Except Panic State :=
  if σ.link pp ≠ none ∨ σ.ref pp ≠ 0#16 then .error ⟨"page_free is not right"⟩
  else .ok { σ.setLink pp σ.pageFreeList with pageFreeList := some pp }

def pageDecref (pp : ℕ) (σ : State) : Except Panic State :=
  let σ := σ.setRef pp (σ.ref pp - 1#16)
  if σ.ref pp = 0#16 then pageFree pp σ else .ok σ

/-- `pp->pp_ref++`. -/
def State.incRef (σ : State) (pp : ℕ) : State := σ.setRef pp (σ.ref pp + 1#16)

/-! ### Page tables -/

/-- A `pte_t *`: the table it points into and the index. -/
abbrev PtePtr := Word × Fin 1024

/-- `*pte`. -/
def State.load (σ : State) (pte : PtePtr) : Word := σ.mem (frameAt pte.1) pte.2

/-- `*pte = w`. -/
def State.store (σ : State) (pte : PtePtr) (w : Word) : State := σ.setWord (frameAt pte.1) pte.2 w

/-- The end of `pgdir_walk`: the entry of `va` in the table that the page
directory entry `pde` refers to. -/
def walkTable (B : Boot) (pde va : Word) (σ : State) : Except Panic (Option PtePtr × State) := do
  let p ← kaddr B (pteAddr pde)
  return (some (p, ptx va), σ)

/-- `pgdir_walk(pgdir, va, create)`. -/
def pgdirWalk (B : Boot) (pgdir va : Word) (create : Bool) (σ : State) :
    Except Panic (Option PtePtr × State) :=
  let pde : PtePtr := (pgdir, pdx va)
  if present (σ.load pde) then walkTable B (σ.load pde) va σ
  else if create then do
    let (page, σ) ← pageAlloc B allocZero σ
    match page with
    -- no page for a page table, and nothing has changed
    | none => return (none, σ)
    | some page =>
      let σ := (σ.incRef page).store pde (page2pa page ||| pteP ||| pteU ||| pteW)
      walkTable B (σ.load pde) va σ
  else return (none, σ)

/-- `page_lookup(pgdir, va, pte_store)`: the page and the entry that maps it. -/
def pageLookup (B : Boot) (pgdir va : Word) (σ : State) :
    Except Panic (Option (ℕ × PtePtr) × State) := do
  let (pte, σ) ← pgdirWalk B pgdir va false σ
  match pte with
  | none => return (none, σ)
  | some pte =>
    -- an entry that is not present is like none at all
    if present (σ.load pte) then
      let page ← pa2page B (pteAddr (σ.load pte))
      return (some (page, pte), σ)
    else return (none, σ)

/-- `lcr3(pa)` on processor `cpu`, which empties its TLB. -/
def lcr3 (cpu : ℕ) (pa : Word) (σ : State) : State :=
  σ.setCpu cpu { σ.cpus cpu with cr3 := pa, tlb := [] }

/-- `invlpg(va)` on processor `cpu`. -/
def invlpg (cpu : ℕ) (va : Word) (σ : State) : State :=
  σ.setCpu cpu { σ.cpus cpu with tlb := (σ.cpus cpu).tlb.filter fun t => t.1 ≠ pgnum va }

def tlbInvalidate (cpu : ℕ) (pgdir va : Word) (σ : State) : State :=
  match σ.curenv cpu with
  | none => invlpg cpu va σ
  | some e => if (σ.envs e).envPgdir = pgdir then invlpg cpu va σ else σ

def pageRemove (B : Boot) (cpu : ℕ) (pgdir va : Word) (σ : State) : Except Panic State := do
  let (found, σ) ← pageLookup B pgdir va σ
  match found with
  | none => return σ
  | some (page, pte) =>
    if present (σ.load pte) then
      -- the entry goes first, and the TLB is told last
      let σ := σ.store pte 0#32
      let σ ← pageDecref page σ
      return tlbInvalidate cpu pgdir va σ
    else return σ

/-- `page_insert` once the walk has found the entry `pte` of `va`. -/
def pageInsertAt (B : Boot) (cpu : ℕ) (pgdir : Word) (pp : ℕ) (va perm : Word) (pte : PtePtr)
    (σ : State) : Except Panic (ℤ × State) := do
  -- counted before the old page is removed, which may be the same one
  let σ := σ.incRef pp
  let σ ← if present (σ.load pte) then pageRemove B cpu pgdir va σ else pure σ
  return (0, σ.store pte (page2pa pp ||| perm ||| pteP))

/-- `page_insert(pgdir, pp, va, perm)`. -/
def pageInsert (B : Boot) (cpu : ℕ) (pgdir : Word) (pp : ℕ) (va perm : Word) (σ : State) :
    Except Panic (ℤ × State) := do
  let (pte, σ) ← pgdirWalk B pgdir va true σ
  match pte with
  | none => return (-eNoMem, σ)
  | some pte => pageInsertAt B cpu pgdir pp va perm pte σ

/-- `boot_map_region`'s loop, over the pages that are left. -/
def bootMapLoop (B : Boot) (pgdir perm : Word) : ℕ → Word → Word → State → Except Panic State
  | 0, _, _, σ => .ok σ
  | n + 1, va, pa, σ => do
    let (pte, σ) ← pgdirWalk B pgdir va true σ
    match pte with
    | none => .error ⟨"boot_map_region panic: out of memory"⟩
    | some pte =>
      -- the reference count is not touched
      bootMapLoop B pgdir perm n (va + pgsize) (pa + pgsize) (σ.store pte (pa ||| perm ||| pteP))

def bootMapRegion (B : Boot) (pgdir va size pa perm : Word) (σ : State) : Except Panic State :=
  bootMapLoop B pgdir perm (pgnum size) va pa σ

/-- The one mapping `mem_init` makes, once `page_init` has run:
`boot_map_region(kern_pgdir, UENVS, PTSIZE, PADDR(envs), PTE_U)`. -/
def memInitMap (B : Boot) (σ : State) : Except Panic State := do
  let pa ← paddr B.envs
  bootMapRegion B B.kernPgdir uenvs ptsize pa pteU σ

/-! ### The processor -/

/-- The two-level walk of the processor from the directory in frame `d`: the
permissions of the directory entry, those of the table entry, and the page. -/
def x86Walk (σ : State) (d : ℕ) (i j : Fin 1024) : Option (BitVec 12 × BitVec 12 × ℕ) :=
  (entryOf (σ.mem d i)).bind fun t => (entryOf (σ.mem t.1 j)).map fun p => (t.2, p.2, p.1)

/-- The table entry the processor finds for the virtual page `n` from the directory in
frame `d`: what its TLB caches. -/
def walkPte (σ : State) (d n : ℕ) : Option Word :=
  (entryOf (σ.mem d (Fin.ofNat 1024 (n / 1024)))).bind fun t =>
    let pte := σ.mem t.1 (Fin.ofNat 1024 n)
    if present pte then some pte else none

/-- Where the processor finds `va` while it runs on the page directory of `e`. -/
def translate (σ : State) (e : Fin nenv) (va : Word) : Option (BitVec 12 × BitVec 12 × ℕ) :=
  x86Walk σ (frameAt (σ.envs e).envPgdir) (pdx va) (ptx va)

/-! ### User pointers -/

/-- The loop of `user_mem_check`, over the pages that are left between the
page-aligned `begin` and `end`: the code and `user_mem_check_addr`. -/
def userMemCheckLoop (B : Boot) (pgdir checkVa checkPerm : Word) :
    ℕ → Word → State → Except Panic (ℤ × State)
  | 0, _, σ => .ok (0, σ)
  | n + 1, begin, σ => do
    let (pte, σ) ← pgdirWalk B pgdir begin false σ
    -- a missing page table is as bad as missing permissions
    let bad : Bool := match pte with
      | none => true
      | some pte => decide (σ.load pte &&& checkPerm ≠ checkPerm)
    if ulim ≤ begin ∨ bad = true then
      -- the first page is reported by `va` itself
      return (-eFault, { σ with userMemCheckAddr := if checkVa ≤ begin then begin else checkVa })
    else userMemCheckLoop B pgdir checkVa checkPerm n (begin + pgsize) σ

/-- `user_mem_check(env, va, len, perm)`. Both bounds are multiples of `PGSIZE`,
so the loop runs once for each page between them, and not at all when the end
comes first. -/
def userMemCheck (B : Boot) (e : Fin nenv) (va len perm : Word) (σ : State) :
    Except Panic (ℤ × State) :=
  let begin := roundDown va pgsize
  let fin := roundUp (va + len) pgsize
  userMemCheckLoop B (σ.envs e).envPgdir va (perm ||| pteP)
    ((fin.toNat - begin.toNat) / 4096) begin σ

end Jos
