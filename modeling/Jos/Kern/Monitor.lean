import Jos.Kern.Printf
import Jos.Lib.String

/-!
# The command interpreter of the kernel monitor

`runcmd` of `kern/monitor.c`. The line is in memory, and `argv` is an array of pointers on
the stack, outside of that memory; the log says where the code writes to either of them, and
what it prints. A run ends with the call of a command and its arguments, or with what
`runcmd` returns without one. What the commands do is not part of it.
-/

namespace Jos

/-- The entries of `commands[]`. -/
inductive Command where
  | help
  | kerninfo
  | backtrace
deriving DecidableEq, Repr

/-- `commands[i].name`. -/
def Command.name : Command → List Byte
  | .help => text "help"
  | .kerninfo => text "kerninfo"
  | .backtrace => text "backtrace"

/-- `commands`. -/
def commands : List Command := [.help, .kerninfo, .backtrace]

/-- `WHITESPACE`. -/
def whitespace : List Byte := text "\t\r\n "

/-- `MAXARGS`. -/
def maxargs : ℕ := 16

/-- What `runcmd` does to the outside. -/
inductive CmdEvent where
  /-- A write to memory. -/
  | store (a : Word)
  /-- A write to `argv[k]`. -/
  | argv (k : ℕ)
  /-- A part of the work of `cprintf`. -/
  | console (e : FmtEvent)

/-- A piece of `runcmd`. -/
abbrev Cmd := Logged CmdEvent FmtAbort

namespace Cmd

/-- What does not write anything. -/
def lift {α : Type} (x : Except FmtAbort α) : Cmd α := ⟨[], x⟩

/-- `*p = b`: memory behind it. -/
def store (m : Memory) (p : Word) (b : Byte) : Cmd Memory :=
  ⟨[.store p], match m p with
    | some _ => .ok (Function.update m p (some b))
    | none => .error (.fault p)⟩

/-- `argv[k] = p`: the array behind it. -/
def setArgv (argv : ℕ → Word) (k : ℕ) (p : Word) : Cmd (ℕ → Word) :=
  ⟨[.argv k], .ok (Function.update argv k p)⟩

/-- `cprintf(fmt, ...)`. -/
def print (m : Memory) (fmt : String) (args : List Word) : Cmd Word :=
  let x := cprintf m fmt args
  ⟨x.log.map .console, x.result⟩

end Cmd

/-- `while (*buf && strchr(WHITESPACE, *buf)) *buf++ = 0`: memory and `buf` behind it.
Addresses repeat after `2 ^ 32` characters. -/
def gobbleSpace : ℕ → Memory → Word → Cmd (Memory × Word)
  | 0, _, _ => Logged.stop .looping
  | n + 1, m, buf => do
    let b ← Cmd.lift (deref m buf)
    if b ≠ 0#8 ∧ (strchr whitespace b).isSome then do
      let m ← Cmd.store m buf 0#8
      gobbleSpace n m (buf + 1#32)
    else pure (m, buf)

/-- `while (*buf && !strchr(WHITESPACE, *buf)) buf++`: `buf` behind it. -/
def skipArg (m : Memory) : ℕ → Word → Cmd Word
  | 0, _ => Logged.stop .looping
  | n + 1, buf => do
    let b ← Cmd.lift (deref m buf)
    if b ≠ 0#8 ∧ ¬(strchr whitespace b).isSome then skipArg m n (buf + 1#32) else pure buf

/-- What the parser has found: `argc` and `argv`, and the memory they point into. -/
structure Parsed where
  m : Memory
  argc : ℕ
  argv : ℕ → Word

/-- The loop over the arguments; `none` if there are too many. It adds an argument every
time, so it cannot go on for more than `MAXARGS` times. -/
def parseArgs : ℕ → Memory → ℕ → (ℕ → Word) → Word → Cmd (Option Parsed)
  | 0, _, _, _, _ => Logged.stop .looping
  | n + 1, m, argc, argv, buf => do
    let (m, buf) ← gobbleSpace (2 ^ 32) m buf
    let b ← Cmd.lift (deref m buf)
    if b = 0#8 then pure (some ⟨m, argc, argv⟩)
    else if argc = maxargs - 1 then do
      let _ ← Cmd.print m "Too many arguments (max %d)\n" [BitVec.ofNat 32 maxargs]
      pure none
    else do
      let argv ← Cmd.setArgv argv argc buf
      let buf ← skipArg m (2 ^ 32) buf
      parseArgs n m (argc + 1) argv buf

/-- The parser: `argv` starts as whatever is on the stack. -/
def runcmdParse (m : Memory) (argv : ℕ → Word) (buf : Word) : Cmd (Option Parsed) := do
  let argv ← Cmd.setArgv argv 0 0#32
  match ← parseArgs maxargs m 0 argv buf with
  | none => pure none
  | some p => do
    let argv ← Cmd.setArgv p.argv p.argc 0#32
    pure (some { p with argv := argv })

/-- The first command whose name `strcmp` finds equal to `p`. -/
def findCommand (m : Memory) (p : Word) : List Command → Cmd (Option Command)
  | [] => pure none
  | c :: cs => do
    let r ← Cmd.lift (strcmp m p c.name)
    if r = 0#32 then pure (some c) else findCommand m p cs

/-- How `runcmd` ends. -/
inductive CmdOutcome where
  /-- It returns without having called a command. -/
  | returned (r : Word)
  /-- It returns what `commands[i].func(argc, argv, tf)` returns. -/
  | called (c : Command) (p : Parsed)

/-- `runcmd(buf, tf)`. -/
def runcmd (m : Memory) (argv : ℕ → Word) (buf : Word) : Cmd CmdOutcome := do
  match ← runcmdParse m argv buf with
  | none => pure (.returned 0#32)
  | some p =>
    if p.argc = 0 then pure (.returned 0#32)
    else do
      match ← findCommand p.m (p.argv 0) commands with
      | some c => pure (.called c p)
      | none => do
        let _ ← Cmd.print p.m "Unknown command '%s'\n" [p.argv 0]
        pure (.returned 0#32)

end Jos
