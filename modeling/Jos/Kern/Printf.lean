import Jos.Lib.Printfmt

/-!
# Output of the kernel

`cprintf` of `kern/printf.c`. Its `putch` gives each character to `cputchar`, so the
calls of `putch` in the log of `vprintfmt` are what appears on the console.
-/

namespace Jos

/-- `putch(ch, cnt)`, as far as the count goes: `*cnt++` moves the pointer and leaves
the count alone. -/
def kernPutch (cnt _ch : Word) : Word := cnt

/-- The characters given to `putch`. -/
def putchars (log : List FmtEvent) : List Word := log.filterMap FmtEvent.char?

/-- `vcprintf(fmt, ap)`. -/
def vcprintf (m : Memory) (fmt : List Byte) (args : ℕ → Word) : Fmt Word :=
  let x := vprintfmt m fmt args
  ⟨x.log, x.result.map fun _ => (putchars x.log).foldl kernPutch 0#32⟩

/-- `cprintf(fmt, ...)`. -/
def cprintf (m : Memory) (fmt : String) (args : List Word) : Fmt Word :=
  vcprintf m (text fmt) fun i => args.getD i 0#32

end Jos
