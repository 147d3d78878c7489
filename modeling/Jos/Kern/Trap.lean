import Jos.Kern.Env

/-!
# Traps from user mode

`trap` and `trap_dispatch` of `kern/trap.c`, for a trap taken in user mode: the
reaping of a dying environment, the handlers that destroy the trapping
environment, and the return to it. The monitor and the messages on the console do
not touch the state of this model.
-/

namespace Jos

/-- `T_BRKPT`. -/
def tBrkpt : Word := 3#32
/-- `T_PGFLT`. -/
def tPgflt : Word := 14#32
/-- `T_SYSCALL`. -/
def tSyscall : Word := 48#32
/-- `IRQ_OFFSET + IRQ_SPURIOUS`. -/
def irqSpurious : Word := 39#32

/-- How `trap_dispatch` comes back to `trap`. -/
inductive Dispatched where
  /-- The handler returned. -/
  | back (σ : State)
  /-- The handler gave up the processor and did not return. -/
  | left (σ : State)

/-- `trap_dispatch(tf)` for a trap taken in user mode with `curenv == e`. The
system call table is behind a `panic`; a page fault and an unexpected trap
destroy the environment, which leaves through the scheduler. -/
def trapDispatch (B : Boot) (cpu : ℕ) (e : Fin nenv) (tf : Trapframe) (σ : State) :
    Except Panic Dispatched :=
  if tf.tfTrapno = tSyscall then .error ⟨"syscall not implemented"⟩
  else if tf.tfTrapno = tPgflt then (envDestroy B cpu e σ).map .left
  else if tf.tfTrapno = tBrkpt then .ok (.back σ)
  else if tf.tfTrapno = irqSpurious then .ok (.back σ)
  else (envDestroy B cpu e σ).map .left

/-- `trap(tf)` for a trap taken in user mode. -/
def trap (B : Boot) (cpu : ℕ) (tf : Trapframe) (σ : State) : Except Panic State :=
  match σ.curenv cpu with
  | none => .error ⟨"assertion failed: curenv"⟩
  | some e =>
    if (σ.envs e).envStatus = .dying then do
      let σ ← envFree B cpu e σ
      schedYield B cpu (σ.setCurenv cpu none)
    else do
      let σ := σ.setEnv e { σ.envs e with envTf := tf }
      match ← trapDispatch B cpu e tf σ with
      | .left σ => return σ
      | .back σ =>
        match σ.curenv cpu with
        | none => schedYield B cpu σ
        | some c =>
          if (σ.envs c).envStatus = .running then envRun cpu c σ else schedYield B cpu σ

end Jos
