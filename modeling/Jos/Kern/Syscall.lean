import Jos.Kern.Env
import Jos.Kern.Printf

/-!
# Printing for user code

`user_mem_assert` of `kern/pmap.c` and `sys_cputs` of `kern/syscall.c`. While the
kernel serves `curenv` the processor runs on its page directory, so the kernel reads
the string through the page tables of the caller.
-/

namespace Jos

/-- Byte `k` of a word in memory. -/
def byteOf (w : Word) (k : ℕ) : Byte := (w >>> (8 * k)).setWidth 8

/-- Memory as the kernel sees it while it serves `e`. -/
def userMemory (σ : State) (e : Fin nenv) : Memory := fun a =>
  (translate σ e a).map fun u => byteOf (σ.mem u.2.2 (Fin.ofNat 1024 (pgoff a / 4))) (pgoff a % 4)

/-- `user_mem_assert(env, va, len, perm)`: if it destroys the environment, what it has
printed before. -/
def userMemAssert (B : Boot) (cpu : ℕ) (e : Fin nenv) (va len perm : Word) (σ : State) :
    Except Panic (Option (List FmtEvent) × State) := do
  let (r, σ) ← userMemCheck B e va len (perm ||| pteU) σ
  if r < 0 then
    let message := cprintf (userMemory σ e)
      "[%08x] user_mem_check assertion failure for va %08x\n" [(σ.envs e).envId, σ.userMemCheckAddr]
    let σ ← envDestroy B cpu e σ
    return (some message.log, σ)
  else return (none, σ)

/-- What a call of `sys_cputs` comes to. -/
inductive Cputs where
  /-- The caller is destroyed, with a message. -/
  | destroyed (message : List FmtEvent) (σ : State)
  /-- The string is printed. -/
  | printed (run : Fmt Word) (σ : State)

/-- `sys_cputs(s, len)`. -/
def sysCputs (B : Boot) (cpu : ℕ) (s len : Word) (σ : State) : Except Panic Cputs :=
  match σ.curenv cpu with
  | none => .error ⟨"kernel page fault"⟩
  | some e => do
    let (message, σ) ← userMemAssert B cpu e s len 0#32 σ
    match message with
    | some message => return .destroyed message σ
    | none => return .printed (cprintf (userMemory σ e) "%.*s" [len, s]) σ

end Jos
