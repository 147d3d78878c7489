import Jos.Kern.Pmap

/-!
# Environments

The environment table of `kern/env.c`: ids, allocation, teardown, destruction and
context switch, with the scheduler entry of `kern/sched.c` and the part of
`kern/trap.c` that decides what happens to the environment that trapped.

`curenv` is `thiscpu->cpu_env`, so every function that mentions it takes the
number of the processor it runs on. Functions that do not return to their caller
(`env_run`, `sched_yield`) return the state in which the processor leaves the
kernel.
-/

namespace Jos

/-- `ENVGENSHIFT`. -/
def envgenshift : ℕ := 12

/-- `envid2env(envid, &env_store, checkperm)`: the code and what is stored.
A null `curenv` is only followed for a `checkperm` on another environment, which
no caller does; the comparison then finds no parent. -/
def envid2env (cpu : ℕ) (envid : Word) (checkperm : Bool) (σ : State) : ℤ × Option (Fin nenv) :=
  if envid = 0#32 then (0, σ.curenv cpu)
  else
    let e := envx envid
    -- the slot may have been given to another environment since
    if (σ.envs e).envStatus = .free ∨ (σ.envs e).envId ≠ envid then (-eBadEnv, none)
    else if checkperm ∧ some e ≠ σ.curenv cpu ∧
        some (σ.envs e).envParentId ≠ (σ.curenv cpu).map fun c => (σ.envs c).envId then
      (-eBadEnv, none)
    else (0, some e)

/-- The body of `env_init`'s loop. -/
def envInitStep (σ : State) (i : Fin nenv) : State :=
  { σ.setEnv i { σ.envs i with envId := 0#32, envStatus := .free, envLink := σ.envFreeList } with
    envFreeList := some i }

/-- `env_init()`, from the last slot down to the first. -/
@[irreducible] def envInit (σ : State) : State := (List.finRange nenv).reverse.foldl envInitStep σ

/-- `env_setup_vm(e)`. -/
def envSetupVm (B : Boot) (e : Fin nenv) (σ : State) : Except Panic (ℤ × State) := do
  let (p, σ) ← pageAlloc B allocZero σ
  match p with
  | none => return (-eNoMem, σ)
  | some p =>
    -- `env_pgdir` is set, the directory of the kernel is copied, and the copy maps itself
    let σ := σ.incRef p
    let pgdir ← page2kva B p
    let σ := σ.setEnv e { σ.envs e with envPgdir := pgdir }
    let σ := σ.setFrame (frameAt pgdir) (σ.mem B.kernFrame)
    let pa ← paddr pgdir
    return (0, σ.store (pgdir, pdx uvpt) (pa ||| pteP ||| pteU))

/-- The id `env_alloc` gives to slot `e` when its last one was `old`: the next
generation above the index, restarting at the first one instead of going
negative. -/
def nextEnvId (old : Word) (e : Fin nenv) : Word :=
  let generation := (old + (1#32 <<< envgenshift)) &&& ~~~(BitVec.ofNat 32 (nenv - 1))
  let generation := if generation.sle 0#32 then 1#32 <<< envgenshift else generation
  generation ||| BitVec.ofNat 32 e.val

/-- The fields `env_alloc` sets once the page directory is there. -/
def initEnv (env : Env) (e : Fin nenv) (parentId : Word) : Env :=
  { env with
    envId := nextEnvId env.envId e
    envParentId := parentId
    envType := .user
    envStatus := .runnable
    envRuns := 0
    envTf :=
      { tfDs := gdUD ||| 3#16, tfEs := gdUD ||| 3#16, tfSs := gdUD ||| 3#16, tfEsp := ustacktop,
        tfCs := gdUT ||| 3#16 }
    envPgfaultUpcall := 0
    envIpcRecving := false }

/-- `env_alloc(&newenv_store, parent_id)`: the code and the new environment. -/
def envAlloc (B : Boot) (parentId : Word) (σ : State) :
    Except Panic (ℤ × Option (Fin nenv) × State) :=
  match σ.envFreeList with
  | none => .ok (-eNoFreeEnv, none, σ)
  | some e => do
    let (r, σ) ← envSetupVm B e σ
    if r < 0 then return (r, none, σ)
    else
      -- up to here nothing of the slot has changed but `env_pgdir`
      let σ := σ.setEnv e (initEnv (σ.envs e) e parentId)
      return (0, some e, { σ with envFreeList := (σ.envs e).envLink })

/-- The body of `env_free`'s inner loop: `pt` is the page table of slot `pdeno`. -/
def unmapPte (B : Boot) (cpu : ℕ) (pgdir pt : Word) (pdeno : Fin 1024) (σ : State)
    (pteno : Fin 1024) : Except Panic State :=
  if present (σ.load (pt, pteno)) then pageRemove B cpu pgdir (pgaddr pdeno pteno 0#32) σ
  else .ok σ

/-- The body of `env_free`'s outer loop. `e->env_pgdir` does not change while it
runs. -/
def unmapPde (B : Boot) (cpu : ℕ) (pgdir : Word) (σ : State) (pdeno : Fin 1024) :
    Except Panic State :=
  if present (σ.load (pgdir, pdeno)) then do
    let pa := pteAddr (σ.load (pgdir, pdeno))
    let pt ← kaddr B pa
    let σ ← (List.finRange 1024).foldlM (unmapPte B cpu pgdir pt pdeno) σ
    -- the page table itself is let go when its entries are
    let σ := σ.store (pgdir, pdeno) 0#32
    let page ← pa2page B pa
    pageDecref page σ
  else .ok σ

/-- The page directory slots below `PDX(UTOP)`, in the order of the loop. -/
def userPdes : List (Fin 1024) := (List.finRange 1024).filter fun i => i < pdx utop

/-- The start of `env_free`: a processor that frees its own environment switches to
`kern_pgdir` first. -/
def switchAway (B : Boot) (cpu : ℕ) (e : Fin nenv) (σ : State) : Except Panic State :=
  if σ.curenv cpu = some e then (paddr B.kernPgdir).map fun pa => lcr3 cpu pa σ else .ok σ

/-- `env_free(e)`. -/
def envFree (B : Boot) (cpu : ℕ) (e : Fin nenv) (σ : State) : Except Panic State := do
  let σ ← switchAway B cpu e σ
  let pgdir := (σ.envs e).envPgdir
  let σ ← userPdes.foldlM (unmapPde B cpu pgdir) σ
  let pa ← paddr pgdir
  let σ := σ.setEnv e { σ.envs e with envPgdir := 0#32 }
  let page ← pa2page B pa
  let σ ← pageDecref page σ
  -- the slot is the first one of the list, and `env_alloc` takes it next
  let σ := σ.setEnv e { σ.envs e with envStatus := .free, envLink := σ.envFreeList }
  return { σ with envFreeList := some e }

/-- Set `curenv` on processor `cpu`. -/
def State.setCurenv (σ : State) (cpu : ℕ) (e : Option (Fin nenv)) : State :=
  σ.setCpu cpu { σ.cpus cpu with cpuEnv := e }

/-- `sched_yield()`. The round-robin search is not implemented: it calls
`sched_halt`, which leaves the processor with no environment, either in the
monitor (nothing can run anywhere) or halted on `kern_pgdir`. -/
def schedYield (B : Boot) (cpu : ℕ) (σ : State) : Except Panic State :=
  if ∃ e, (σ.envs e).envStatus = .runnable ∨ (σ.envs e).envStatus = .running ∨
      (σ.envs e).envStatus = .dying then
    (paddr B.kernPgdir).map fun pa => lcr3 cpu pa (σ.setCurenv cpu none)
  else .ok σ

/-- `env_destroy(e)`. -/
def envDestroy (B : Boot) (cpu : ℕ) (e : Fin nenv) (σ : State) : Except Panic State :=
  if (σ.envs e).envStatus = .running ∧ σ.curenv cpu ≠ some e then
    -- it runs on another processor, and is freed there when it traps
    .ok (σ.setEnv e { σ.envs e with envStatus := .dying })
  else do
    let σ ← envFree B cpu e σ
    if σ.curenv cpu = some e then schedYield B cpu (σ.setCurenv cpu none) else return σ

/-- `env_pop_tf(&curenv->env_tf)` with `curenv == e`, up to the `iret`. -/
def envPopTf (cpu : ℕ) (e : Fin nenv) (σ : State) : State :=
  σ.setEnv e { σ.envs e with envCpunum := BitVec.ofNat 32 cpu }

/-- `env_run(e)`. -/
def envRun (cpu : ℕ) (e : Fin nenv) (σ : State) : Except Panic State := do
  -- one that is not running keeps its status
  let σ : State := match σ.curenv cpu with
    | none => σ
    | some c => if (σ.envs c).envStatus = .running then
        σ.setEnv c { σ.envs c with envStatus := .runnable } else σ
  let σ := σ.setCurenv cpu (some e)
  let σ := σ.setEnv e
    { σ.envs e with envStatus := .running, envRuns := (σ.envs e).envRuns + 1#32 }
  let pa ← paddr (σ.envs e).envPgdir
  return envPopTf cpu e (lcr3 cpu pa σ)

end Jos
