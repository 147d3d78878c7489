import Jos.Kern.Printf

/-!
# Reading a line

`readline` of `lib/readline.c`, with the `iscons` of `kern/console.c`. What `getchar`
returns is a list of `int`s, one for each call; `cputchar` is what the kernel's `cprintf`
calls for each character, so both leave the same entries in the log.

`buf` is static, so it comes with what an earlier call has left there.
-/

namespace Jos

/-- `BUFLEN`. -/
def buflen : ℕ := 1024

/-- `iscons(fdnum)`. -/
def iscons (_fdnum : ℕ) : Bool := true

/-- Where `readline` is: in its loop, or it has returned `NULL` or `buf`. -/
inductive ReadlineState where
  | reading (i : ℕ) (buf : ℕ → Byte)
  | returned (line : Option (ℕ → Byte))

/-- `if (echoing) cputchar(c)`. -/
def echo (echoing : Bool) (c : Word) : Fmt Unit := if echoing then Fmt.putch c else pure ()

/-- The body of the loop, once `getchar` has returned `c`. -/
def readlineStep (m : Memory) (echoing : Bool) (c : Word) (i : ℕ) (buf : ℕ → Byte) :
    Fmt ReadlineState :=
  if c.slt 0#32 then do
    let _ ← cprintf m "read error: %e\n" [c]
    pure (.returned none)
  else if (c = 0x08#32 ∨ c = 0x7F#32) ∧ 0 < i then do
    echo echoing 0x08#32
    pure (.reading (i - 1) buf)
  else if ¬c.slt 0x20#32 ∧ i < buflen - 1 then do
    echo echoing c
    pure (.reading (i + 1) (Function.update buf i (c.setWidth 8)))
  else if c = 0x0A#32 ∨ c = 0x0D#32 then do
    echo echoing 0x0A#32
    pure (.returned (some (Function.update buf i 0#8)))
  else pure (.reading i buf)

/-- The loop, for as many calls of `getchar` as there are `keys`. -/
def readlineRun (m : Memory) (echoing : Bool) : List Word → ReadlineState → Fmt ReadlineState
  | c :: keys, .reading i buf => do
    let s ← readlineStep m echoing c i buf
    readlineRun m echoing keys s
  | _, s => pure s

/-- `if (prompt != NULL) cprintf("%s", prompt)`. -/
def readlinePrompt (m : Memory) (prompt : Word) : Fmt Unit :=
  if prompt ≠ 0#32 then do
    let _ ← cprintf m "%s" [prompt]
    pure ()
  else pure ()

/-- `readline(prompt)`. -/
def readline (m : Memory) (prompt : Word) (keys : List Word) (buf : ℕ → Byte) :
    Fmt ReadlineState := do
  readlinePrompt m prompt
  readlineRun m (iscons 0) keys (.reading 0 buf)

end Jos
