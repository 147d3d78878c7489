import Jos.Inc.Mmu

/-!
# Spin locks

`kern/spinlock.c` with `DEBUG_SPINLOCK`, as it is compiled. A processor that alternates
`spin_lock` and `spin_unlock` on one lock is a small machine: `LockPc` is the next access to
the lock that it makes, and `lockAccess` is that access. Every access is one atomic step;
`holding` makes two of them, a load of `locked` and a load of `cpu`, and other processors may
come in between.

A `struct CpuInfo *` is a value of `Cpu`, one for each processor, and `lk->cpu == 0` is
`none`. The call stack that `get_caller_pcs` records is an input of the step.
-/

namespace Jos

/-- A `struct spinlock`. -/
structure Spinlock (Cpu : Type) where
  locked : Word := 0#32
  name : String := ""
  cpu : Option Cpu := none
  pcs : List Word := List.replicate 10 0#32

/-- `xchg(&lk->locked, newval)`: the old value and the lock after it. -/
def Spinlock.xchg {Cpu : Type} (lk : Spinlock Cpu) (newval : Word) : Word × Spinlock Cpu :=
  (lk.locked, { lk with locked := newval })

/-- `holding(lock)`, evaluated on processor `c` with no other processor in between. -/
def holding {Cpu : Type} [DecidableEq Cpu] (lock : Spinlock Cpu) (c : Cpu) : Bool :=
  lock.locked != 0#32 && lock.cpu = some c

/-- `__spin_initlock(lk, name)`. -/
def spinInitlock {Cpu : Type} (lk : Spinlock Cpu) (name : String) : Spinlock Cpu :=
  { lk with locked := 0#32, name := name, cpu := none }

/-- The access to the lock that a processor makes next. -/
inductive LockPc where
  /-- Outside. The next access is the load of `locked` by `holding` in `spin_lock`. -/
  | outside
  /-- In `holding` of `spin_lock`, at the load of `cpu`. -/
  | lockHolding
  /-- At the `xchg` in the loop of `spin_lock`. -/
  | acquire
  /-- At `lk->cpu = thiscpu`. -/
  | setCpu
  /-- At `get_caller_pcs(lk->pcs)`. -/
  | setPcs
  /-- `spin_lock` has returned. The next access is the load of `locked` by `holding` in
  `spin_unlock`. -/
  | critical
  /-- In `holding` of `spin_unlock`, at the load of `cpu`. -/
  | unlockHolding
  /-- At `lk->pcs[0] = 0`. -/
  | clearPcs
  /-- At `lk->cpu = 0`. -/
  | clearCpu
  /-- At the releasing `xchg`. -/
  | release
  /-- `panic`: already holding. -/
  | panicLock
  /-- `panic`: not holding. -/
  | panicUnlock
deriving DecidableEq, Repr

/-- One access of processor `c` to the lock; `pcs` is its call stack. A processor that has
panicked makes no more. -/
def lockAccess {Cpu : Type} [DecidableEq Cpu] (c : Cpu) (pcs : List Word) (lk : Spinlock Cpu) :
    LockPc → Option (LockPc × Spinlock Cpu)
  -- spin_lock
  | .outside => some (if lk.locked ≠ 0#32 then .lockHolding else .acquire, lk)
  | .lockHolding => some (if lk.cpu = some c then .panicLock else .acquire, lk)
  | .acquire =>
    let (old, lk) := lk.xchg 1#32
    some (if old ≠ 0#32 then .acquire else .setCpu, lk)
  | .setCpu => some (.setPcs, { lk with cpu := some c })
  | .setPcs => some (.critical, { lk with pcs := pcs })
  -- spin_unlock
  | .critical => some (if lk.locked ≠ 0#32 then .unlockHolding else .panicUnlock, lk)
  | .unlockHolding => some (if lk.cpu = some c then .clearPcs else .panicUnlock, lk)
  | .clearPcs => some (.clearCpu, { lk with pcs := lk.pcs.set 0 0#32 })
  | .clearCpu => some (.release, { lk with cpu := none })
  | .release => some (.outside, (lk.xchg 0#32).2)
  | .panicLock => none
  | .panicUnlock => none

/-- The lock and where each processor is. -/
structure LockState (Cpu : Type) where
  lk : Spinlock Cpu
  pc : Cpu → LockPc

/-- The lock has been set up by `spin_initlock`, and no processor has used it. -/
def lockInit (Cpu : Type) (lk : Spinlock Cpu) (name : String) : LockState Cpu :=
  ⟨spinInitlock lk name, fun _ => .outside⟩

/-- Processor `c` makes its next access. -/
def LockStep {Cpu : Type} [DecidableEq Cpu] (s : LockState Cpu) (op : Cpu × List Word)
    (s' : LockState Cpu) : Prop :=
  ∃ pc lk, lockAccess op.1 op.2 s.lk (s.pc op.1) = some (pc, lk) ∧
    s' = ⟨lk, Function.update s.pc op.1 pc⟩

end Jos
