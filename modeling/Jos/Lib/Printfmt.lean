import Jos.Inc.Mmu
import Jos.Library.Logged

/-!
# Formatted output

`vprintfmt` of `lib/printfmt.c`, with `printnum`, `getint`, `getuint` and the
`strnlen` of `lib/string.c` it calls.

The output goes through `putch`, so a run is a log of the calls of `putch`, in
which we also record every byte that the code reads: of the format by its index,
and of memory by its address. The callers' `putch` functions are folds over this
log.

* The `va_list` is the sequence of the words on the stack; `ap` counts how many
  have been taken. A `long long` is two of them.
* `int` is 32 bits wide and wraps.
* The jumps of the code are the three `Mode`s of a machine: copying text, after
  `reswitch`, and in the loop that reads a decimal number. One `step` reads one
  character of the format.
* A read of memory that is not mapped faults, and ends the run.
-/

namespace Jos

/-- A `char`. -/
abbrev Byte := BitVec 8

/-- Bytes are compared to decide whether one is in a list. -/
instance lawfulBEqByte : LawfulBEq Byte := inferInstance

/-- A character constant. -/
def chr (c : Char) : Byte := BitVec.ofNat 8 c.toNat

/-- The bytes of a string constant, without the terminating NUL. -/
def text (s : String) : List Byte := s.toList.map chr

/-- Memory as the running code sees it; `none` is not mapped. -/
abbrev Memory := Word → Option Byte

/-- What the formatter does to the outside. -/
inductive FmtEvent where
  /-- `putch(ch, putdat)`. -/
  | putch (ch : Word)
  /-- A read of the format at an index. -/
  | fetch (i : ℕ)
  /-- A read of memory. -/
  | load (a : Word)
deriving DecidableEq, Repr

/-- Why the formatter does not return. -/
inductive FmtAbort where
  /-- A page fault at an address. -/
  | fault (a : Word)
  /-- It runs on. -/
  | looping
deriving DecidableEq, Repr

/-- A piece of the formatter's work. -/
abbrev Fmt := Logged FmtEvent FmtAbort

namespace Fmt

/-- `putch(ch, putdat)`. -/
def putch (ch : Word) : Fmt Unit := Logged.tell [.putch ch]

/-- `for (; width > 0; width--) putch(padc, putdat)`. -/
def pad (padc : Byte) (width : Word) : Fmt Unit :=
  Logged.tell (List.replicate width.toInt.toNat (.putch (padc.signExtend 32)))

end Fmt

/-! ### Strings -/

/-- A `const char *`: an argument of the caller, or a string constant of the
formatter. -/
inductive CString where
  | arg (p : Word)
  | const (s : List Byte)

/-- `p[i]`. -/
def CString.read (m : Memory) (i : ℕ) : CString → Fmt Byte
  | .arg p =>
    let a := p + BitVec.ofNat 32 i
    ⟨[.load a], match m a with
      | some b => .ok b
      | none => .error (.fault a)⟩
  | .const s => pure (s.getD i 0#8)

/-- `strnlen(s, size)` from index `i` on, with `size` characters left. -/
def strnlenLoop (m : Memory) (s : CString) : ℕ → ℕ → Fmt ℕ
  | 0, i => pure i
  | size + 1, i => do
    let b ← s.read m i
    if b = 0#8 then pure i else strnlenLoop m s size (i + 1)

/-- `strnlen(s, size)`. -/
def strnlen (m : Memory) (s : CString) (size : Word) : Fmt ℕ := strnlenLoop m s size.toNat 0

/-- What is between `%` and the conversion character. -/
structure FmtSpec where
  padc : Byte := chr ' '
  width : Word := -1#32
  precision : Word := -1#32
  lflag : Word := 0#32
  altflag : Bool := false
deriving DecidableEq, Repr

/-- The character `%s` prints for `ch`. -/
def FmtSpec.shown (f : FmtSpec) (ch : Byte) : Word :=
  let c := ch.signExtend 32
  if f.altflag ∧ (c.slt 0x20#32 ∨ (0x7E#32).slt c) then 0x3F#32 else c

/-- The loop of `%s`: the index at which it stops. Each character is read before the
precision is looked at. Addresses repeat after `2 ^ 32` characters, so that much fuel
decides whether it ends. -/
def printStringLoop (m : Memory) (f : FmtSpec) (p : CString) : ℕ → Word → ℕ → Fmt ℕ
  | 0, _, _ => Logged.stop .looping
  | fuel + 1, precision, i => do
    let ch ← p.read m i
    if ch = 0#8 then pure i
    -- no precision was given
    else if precision.slt 0#32 then do
      Fmt.putch (f.shown ch)
      printStringLoop m f p fuel precision (i + 1)
    else if (precision - 1#32).slt 0#32 then pure i
    else do
      Fmt.putch (f.shown ch)
      printStringLoop m f p fuel (precision - 1#32) (i + 1)

/-- `%s` with the string `p`. -/
def printString (m : Memory) (f : FmtSpec) (p : CString) : Fmt Unit := do
  let width ←
    if (0#32).slt f.width ∧ f.padc ≠ chr '-' then do
      -- padded on the left, by what the string leaves of the width
      let n ← strnlen m p f.precision
      let width := f.width - BitVec.ofNat 32 n
      Fmt.pad f.padc width
      pure (if (0#32).slt width then 0#32 else width)
    else pure f.width
  let n ← printStringLoop m f p (2 ^ 32) f.precision 0
  Fmt.pad (chr ' ') (width - BitVec.ofNat 32 n)

/-! ### Numbers -/

/-- `"0123456789abcdef"[d]`. -/
def digit (d : ℕ) : Byte := (text "0123456789abcdef").getD d 0#8

/-- `printnum(putch, putdat, num, base, width, padc)`. -/
def printnum (num base : ℕ) (width : Word) (padc : Byte) : Fmt Unit := do
  if _h : base ≤ num ∧ 2 ≤ base then printnum (num / base) base (width - 1#32) padc
  else Fmt.pad padc (width - 1#32)
  Fmt.putch ((digit (num % base)).signExtend 32)
termination_by num
decreasing_by exact Nat.div_lt_self (by omega) (by omega)

/-- `getuint(&ap, lflag)`, and how many words it takes. -/
def getuint (args : ℕ → Word) (ap : ℕ) (lflag : Word) : BitVec 64 × ℕ :=
  if (1#32).slt lflag then (args (ap + 1) ++ args ap, ap + 2)
  else ((args ap).setWidth 64, ap + 1)

/-- `getint(&ap, lflag)`, and how many words it takes. -/
def getint (args : ℕ → Word) (ap : ℕ) (lflag : Word) : BitVec 64 × ℕ :=
  if (1#32).slt lflag then (args (ap + 1) ++ args ap, ap + 2)
  else ((args ap).signExtend 64, ap + 1)

/-- `number:`. -/
def printNumber (f : FmtSpec) (num : BitVec 64) (base : ℕ) : Fmt Unit :=
  printnum num.toNat base f.width f.padc

/-- `%d`. -/
def printSigned (f : FmtSpec) (num : BitVec 64) : Fmt Unit :=
  if num.slt 0#64 then do
    Fmt.putch 0x2D#32
    -- the sign comes first, whatever the padding is
    printNumber f (-num) 10
  else printNumber f num 10

/-! ### Error codes -/

/-- `error_string[err]`. -/
def errorString (err : Word) : Option (List Byte) :=
  match err.toInt with
  | 1 => some (text "unspecified error")
  | 2 => some (text "bad environment")
  | 3 => some (text "invalid parameter")
  | 4 => some (text "out of memory")
  | 5 => some (text "out of environments")
  | 6 => some (text "segmentation fault")
  | 7 => some (text "env is not recving")
  | 8 => some (text "unexpected end of file")
  | _ => none

/-- `%e`: the calls of `printfmt` with the formats `"%s"` and `"error %d"`, which
take no error code themselves. -/
def printError (m : Memory) (err : Word) : Fmt Unit :=
  let err := if err.slt 0#32 then -err else err
  match errorString err with
  | some s => printString m {} (.const s)
  | none => do
    Logged.tell ((text "error ").map fun c => .putch (c.setWidth 32))
    printSigned {} (err.signExtend 64)

/-! ### The machine -/

/-- Where the code is in the format. -/
inductive FmtMode where
  /-- In the loop that copies text. -/
  | text
  /-- At `reswitch`. -/
  | escape (f : FmtSpec)
  /-- In the loop that reads a number into `precision`. -/
  | number (f : FmtSpec)

/-- The variables of `vprintfmt`: where it is, the index `fmt` points to, and how many
words of the arguments it has taken. -/
structure FmtConfig where
  mode : FmtMode
  fmt : ℕ
  ap : ℕ

/-- `*fmt`. -/
def fetch (fmt : List Byte) (i : ℕ) : Fmt Byte := ⟨[.fetch i], .ok (fmt.getD i 0#8)⟩

/-- `process_precision:`. -/
def FmtSpec.processPrecision (f : FmtSpec) : FmtSpec :=
  if f.width.slt 0#32 then { f with width := f.precision, precision := -1#32 } else f

/-- The search of an unrecognized escape for its `%`, from the character before index
`i` on: the index after it. -/
def rewind (fmt : List Byte) : ℕ → Fmt ℕ
  | 0 => pure 0
  | i + 1 => do
    let ch ← fetch fmt i
    if ch = chr '%' then pure (i + 1) else rewind fmt i

/-- `ch - '0'`. -/
def digitValue (ch : Byte) : Word := ch.setWidth 32 - 48#32

/-- The `switch` at `reswitch`, once it has read `ch` at index `i`. -/
def escapeStep (m : Memory) (fmt : List Byte) (args : ℕ → Word) (f : FmtSpec) (ch : Byte)
    (i ap : ℕ) : Fmt FmtConfig :=
  let again (f : FmtSpec) (ap : ℕ) : Fmt FmtConfig := pure ⟨.escape f, i + 1, ap⟩
  let printed (x : Fmt Unit) (ap : ℕ) : Fmt FmtConfig := do
    x
    pure ⟨.text, i + 1, ap⟩
  match Char.ofNat ch.toNat with
  | '-' => again { f with padc := chr '-' } ap
  | '0' => again { f with padc := chr '0' } ap
  | '1' | '2' | '3' | '4' | '5' | '6' | '7' | '8' | '9' =>
    pure ⟨.number { f with precision := digitValue ch }, i + 1, ap⟩
  -- the argument is a precision until `process_precision` makes it a width
  | '*' => again { f with precision := args ap }.processPrecision (ap + 1)
  | '.' => again (if f.width.slt 0#32 then { f with width := 0#32 } else f) ap
  | '#' => again { f with altflag := true } ap
  | 'l' => again { f with lflag := f.lflag + 1#32 } ap
  | 'c' => printed (Fmt.putch (args ap)) (ap + 1)
  | 'e' => printed (printError m (args ap)) (ap + 1)
  | 's' =>
    let p := if args ap = 0#32 then .const (text "(null)") else .arg (args ap)
    printed (printString m f p) (ap + 1)
  | 'd' =>
    let (num, ap) := getint args ap f.lflag
    printed (printSigned f num) ap
  | 'u' =>
    let (num, ap) := getuint args ap f.lflag
    printed (printNumber f num 10) ap
  | 'o' =>
    let (num, ap) := getuint args ap f.lflag
    printed (printNumber f num 8) ap
  | 'p' =>
    printed (do
      Fmt.putch 0x30#32
      Fmt.putch 0x78#32
      printNumber f ((args ap).setWidth 64) 16) (ap + 1)
  | 'x' =>
    let (num, ap) := getuint args ap f.lflag
    printed (printNumber f num 16) ap
  | '%' => printed (Fmt.putch 0x25#32) ap
  | _ => do
    Fmt.putch 0x25#32
    let j ← rewind fmt i
    pure ⟨.text, j, ap⟩

/-- One step of `vprintfmt`; `none` is its return. -/
def fmtStep (m : Memory) (fmt : List Byte) (args : ℕ → Word) (c : FmtConfig) :
    Fmt (Option FmtConfig) := do
  let ch ← fetch fmt c.fmt
  match c.mode with
  | .text =>
    if ch = chr '%' then pure (some ⟨.escape {}, c.fmt + 1, c.ap⟩)
    else if ch = 0#8 then pure none
    else do
      Fmt.putch (ch.setWidth 32)
      pure (some ⟨.text, c.fmt + 1, c.ap⟩)
  | .escape f => do
    let c' ← escapeStep m fmt args f ch c.fmt c.ap
    pure (some c')
  | .number f =>
    if chr '0' ≤ ch ∧ ch ≤ chr '9' then
      pure (some ⟨.number { f with precision := f.precision * 10#32 + digitValue ch },
        c.fmt + 1, c.ap⟩)
    -- the character is read again, at `reswitch`
    else pure (some ⟨.escape f.processPrecision, c.fmt, c.ap⟩)

/-- The steps of `vprintfmt` from a configuration on. -/
def fmtRun (m : Memory) (fmt : List Byte) (args : ℕ → Word) : ℕ → FmtConfig → Fmt Unit
  | 0, _ => Logged.stop .looping
  | n + 1, c => do
    match ← fmtStep m fmt args c with
    | none => pure ()
    | some c' => fmtRun m fmt args n c'

/-- `vprintfmt(putch, putdat, fmt, ap)`. Every character of the format is read at most
twice as part of an escape and once as text, so the fuel is never the end of it. -/
def vprintfmt (m : Memory) (fmt : List Byte) (args : ℕ → Word) : Fmt Unit :=
  fmtRun m fmt args (4 * (fmt.length + 1)) ⟨.text, 0, 0⟩

/-- The characters given to `putch`. -/
def FmtEvent.char? : FmtEvent → Option Word
  | .putch ch => some ch
  | _ => none

end Jos
