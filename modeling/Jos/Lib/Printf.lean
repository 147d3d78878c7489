import Jos.Kern.Printf

/-!
# Output of user programs

The `vcprintf` of `lib/printf.c`, which collects the characters in a buffer and hands
them to `sys_cputs`, and the `vsnprintf` of `lib/printfmt.c`, which stores them. Both
drive `vprintfmt` with a `putch` of their own, so they are folds over its log, as the
`vcprintf` of the kernel is.

The strings that are formatted are not in the buffer that is written, which C asks of
the caller, so memory does not change under `vprintfmt`.
-/

namespace Jos

/-! ### `lib/printf.c` -/

/-- `struct printbuf`, and the strings given to `sys_cputs` so far. -/
structure Printbuf where
  idx : ℕ := 0
  cnt : Word := 0#32
  buf : ℕ → Byte := fun _ => 0#8
  cputs : List (List Byte) := []

/-- `sys_cputs(b->buf, b->idx)`. -/
def Printbuf.sysCputs (b : Printbuf) : Printbuf :=
  { b with cputs := b.cputs ++ [(List.range b.idx).map b.buf] }

/-- `b->buf[b->idx++] = ch`. -/
def Printbuf.push (b : Printbuf) (ch : Word) : Printbuf :=
  { b with idx := b.idx + 1, buf := Function.update b.buf b.idx (ch.setWidth 8) }

/-- `putch(ch, b)`. -/
def userPutch (b : Printbuf) (ch : Word) : Printbuf :=
  let b := b.push ch
  let b := if b.idx = 256 - 1 then { b.sysCputs with idx := 0 } else b
  { b with cnt := b.cnt + 1#32 }

/-- `vcprintf(fmt, ap)`: what it returns, and the strings given to `sys_cputs`. -/
def userVcprintf (m : Memory) (fmt : List Byte) (args : ℕ → Word) :
    Fmt (Word × List (List Byte)) :=
  let x := vprintfmt m fmt args
  ⟨x.log, x.result.map fun _ =>
    let b := ((putchars x.log).foldl userPutch {}).sysCputs
    (b.cnt, b.cputs)⟩

/-! ### `vsnprintf` -/

/-- `E_INVAL`. -/
def eInval : Word := 3#32

/-- `struct sprintbuf`, and the memory it points into. -/
structure Sprintbuf where
  buf : Word
  ebuf : Word
  cnt : Word
  mem : Memory

/-- `sprintputch(ch, b)`. -/
def sprintputch (b : Sprintbuf) (ch : Word) : Sprintbuf :=
  let b := { b with cnt := b.cnt + 1#32 }
  if b.buf < b.ebuf then
    { b with buf := b.buf + 1#32, mem := Function.update b.mem b.buf (some (ch.setWidth 8)) }
  else b

/-- `vsnprintf(buf, n, fmt, ap)`: what it returns, and memory after it. -/
def vsnprintf (m : Memory) (buf n : Word) (fmt : List Byte) (args : ℕ → Word) :
    Fmt (Word × Memory) :=
  if buf = 0#32 ∨ n.slt 1#32 then pure (-eInval, m)
  else
    let x := vprintfmt m fmt args
    ⟨x.log, x.result.map fun _ =>
      let b := (putchars x.log).foldl sprintputch ⟨buf, buf + n - 1#32, 0#32, m⟩
      (b.cnt, Function.update b.mem b.buf (some 0#8))⟩

end Jos
