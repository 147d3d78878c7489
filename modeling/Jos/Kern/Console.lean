import Jos.Lib.StringAsm
import Jos.Library.Ring

/-!
# The console

The input buffer of `kern/console.c`: `cons_intr`, through which the interrupt handlers of
the serial port and of the keyboard put characters into it, and `cons_getc`, which polls both
devices and takes one out. A call of `cons_intr` is given what its `proc` returns before the
-1 that ends the loop; these are `uint8_t`s, from the receive register of the port or from
the tables of the keyboard.

The text screen: `cga_putc`, and `cons_putc`, through which it prints a tab. `cga_init` has
found a color display or a monochrome one; that decides where `crt_buf` is and which ports
belong to it. The screen is 16-bit cells in memory. What the code does to other devices, and
which ranges of memory it writes, is a log.
-/

namespace Jos

/-- `CONSBUFSIZE`. -/
def consbufsize : ℕ := 512

/-- `struct cons`: `buf`, `rpos` and `wpos`. -/
abbrev Cons := Ring Byte

/-- The static `cons` before anything has happened. -/
def consInit : Cons := ⟨fun _ => 0#8, 0, 0⟩

/-- `cons.buf[cons.wpos++] = c; if (cons.wpos == CONSBUFSIZE) cons.wpos = 0`. -/
def consPut (cons : Cons) (c : Byte) : Cons :=
  let cons := { cons with buf := Function.update cons.buf cons.wpos c, wpos := cons.wpos + 1 }
  if cons.wpos = consbufsize then { cons with wpos := 0 } else cons

/-- `cons_intr(proc)`, when `proc` returns `data`. -/
def consIntr : List Byte → Cons → Cons
  | [], cons => cons
  | c :: data, cons => if c = 0#8 then consIntr data cons else consIntr data (consPut cons c)

/-- `serial_intr()`. -/
def serialIntr (serialExists : Bool) (data : List Byte) (cons : Cons) : Cons :=
  if serialExists then consIntr data cons else cons

/-- `kbd_intr()`. -/
def kbdIntr (data : List Byte) (cons : Cons) : Cons := consIntr data cons

/-- `cons_getc()`, with what it finds at the serial port and at the keyboard: what it
returns, and the buffer behind it. -/
def consGetc (serialExists : Bool) (serial kbd : List Byte) (cons : Cons) : Byte × Cons :=
  let cons := serialIntr serialExists serial cons
  let cons := kbdIntr kbd cons
  if cons.rpos ≠ cons.wpos then
    let c := cons.buf cons.rpos
    let cons := { cons with rpos := cons.rpos + 1 }
    (c, if cons.rpos = consbufsize then { cons with rpos := 0 } else cons)
  else (0#8, cons)

/-! ### The screen -/

/-- `CRT_ROWS`. -/
def crtRows : ℕ := 25

/-- `CRT_COLS`. -/
def crtCols : ℕ := 80

/-- `CRT_SIZE`. -/
def crtSize : ℕ := crtRows * crtCols

/-- `crt_buf`: `MONO_BUF` or `CGA_BUF`, above `KERNBASE`. -/
def crtBuf (mono : Bool) : Word := kernbase + if mono then 0xB0000#32 else 0xB8000#32

/-- `addr_6845`: `MONO_BASE` or `CGA_BASE`. -/
def addr6845 (mono : Bool) : Word := if mono then 0x3B4#32 else 0x3D4#32

/-- What printing does to the outside. -/
inductive ConsEvent where
  /-- `serial_putc(c)`. -/
  | serial (c : Word)
  /-- `lpt_putc(c)`. -/
  | lpt (c : Word)
  /-- A write of `len` bytes of memory. -/
  | write (a : Word) (len : ℕ)
  /-- `outb(port, data)`. -/
  | outb (port : Word) (data : Byte)

/-- Memory, `crt_pos`, and the log. -/
structure Crt extends StringState where
  crtPos : BitVec 16
  log : List ConsEvent

/-- `&crt_buf[i]`. -/
def crtCell (mono : Bool) (i : ℕ) : Word := crtBuf mono + BitVec.ofNat 32 (2 * i)

/-- `crt_buf[i] = v`. -/
def crtWrite (mono : Bool) (i : ℕ) (v : BitVec 16) (s : Crt) : Crt :=
  { s with
    mem := store16 s.mem (crtCell mono i) v
    log := s.log ++ [.write (crtCell mono i) 2] }

/-- `crt_pos -= (crt_pos % CRT_COLS)`. -/
def crtReturn (s : Crt) : Crt :=
  { s with crtPos := s.crtPos - s.crtPos % BitVec.ofNat 16 crtCols }

/-- What `cga_putc` does when `crt_pos >= CRT_SIZE`. -/
def crtScroll (mono : Bool) (s : Crt) : Crt :=
  let len := (crtSize - crtCols) * 2
  let moved := (StringAsm.memmove (crtBuf mono) (crtCell mono crtCols) (BitVec.ofNat 32 len)
    s.toStringState).2
  let s : Crt :=
    { s with toStringState := moved, log := s.log ++ [.write (crtBuf mono) len] }
  let s := (List.range' (crtSize - crtCols) crtCols).foldl
    (fun s i => crtWrite mono i (0x0700#16 ||| (chr ' ').setWidth 16) s) s
  { s with crtPos := s.crtPos - BitVec.ofNat 16 crtCols }

/-- `move that little blinky thing`. -/
def crtBlinky (mono : Bool) (s : Crt) : Crt :=
  { s with
    log := s.log ++
      [.outb (addr6845 mono) 14#8,
        .outb (addr6845 mono + 1#32) ((s.crtPos >>> 8).setWidth 8),
        .outb (addr6845 mono) 15#8,
        .outb (addr6845 mono + 1#32) (s.crtPos.setWidth 8)] }

/-- What `cga_putc` does behind the `switch`. -/
def crtUpdate (mono : Bool) (s : Crt) : Crt :=
  crtBlinky mono (if s.crtPos.toNat ≥ crtSize then crtScroll mono s else s)

/-- `if (!(c & ~0xFF)) c |= 0x0700`. -/
def attributed (c : Word) : Word :=
  if c &&& ~~~0xff#32 = 0#32 then c ||| 0x0700#32 else c

/-- `c & 0xff` is the character `ch`. -/
def isChar (c : Word) (ch : Char) : Prop := attributed c &&& 0xff#32 = (chr ch).setWidth 32

instance (c : Word) (ch : Char) : Decidable (isChar c ch) := inferInstanceAs (Decidable (_ = _))

mutual

/-- `cga_putc(c)`. -/
def cgaPutc (mono : Bool) (c : Word) (s : Crt) : Crt :=
  let s :=
    if isChar c '\x08' then
      if s.crtPos > 0#16 then
        let s := { s with crtPos := s.crtPos - 1#16 }
        let blank := attributed c &&& ~~~0xff#32 ||| (chr ' ').setWidth 32
        crtWrite mono s.crtPos.toNat (blank.setWidth 16) s
      else s
    else if isChar c '\n' then
      crtReturn { s with crtPos := s.crtPos + BitVec.ofNat 16 crtCols }
    else if isChar c '\r' then crtReturn s
    else if isChar c '\t' then
      let s := consPutc mono ((chr ' ').setWidth 32) s
      let s := consPutc mono ((chr ' ').setWidth 32) s
      let s := consPutc mono ((chr ' ').setWidth 32) s
      let s := consPutc mono ((chr ' ').setWidth 32) s
      consPutc mono ((chr ' ').setWidth 32) s
    else
      let s := crtWrite mono s.crtPos.toNat ((attributed c).setWidth 16) s
      { s with crtPos := s.crtPos + 1#16 }
  crtUpdate mono s
termination_by if isChar c '\t' then 2 else 0
decreasing_by all_goals simp_all; decide

/-- `cons_putc(c)`. -/
def consPutc (mono : Bool) (c : Word) (s : Crt) : Crt :=
  cgaPutc mono c { s with log := s.log ++ [.serial c, .lpt c] }
termination_by if isChar c '\t' then 3 else 1
decreasing_by split_ifs <;> omega

end

end Jos
