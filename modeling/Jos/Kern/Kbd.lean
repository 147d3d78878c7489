import Jos.Kern.Console

/-!
# The keyboard

`kbd_proc_data` of `kern/console.c`, with the tables it decodes scan codes by and the key codes
of `inc/kbdreg.h`, and the two calls through which its characters come into the input buffer,
`kbd_intr` and `cons_getc`.

The keyboard controller is a device: it has the bytes that were sent to it and not yet read, in
their order, each with the status register as it reads while this byte is the next one. With
nothing in it only `KBS_DIB` decides what the code does, and it is clear.
-/

namespace Jos

/-- `KBS_DIB`. -/
def kbsDib : Byte := 0x01#8
/-- `KBS_TERR`. -/
def kbsTerr : Byte := 0x20#8

/-- `SHIFT`. -/
def shiftBit : Word := 1#32 <<< 0
/-- `CTL`. -/
def ctlBit : Word := 1#32 <<< 1
/-- `ALT`. -/
def altBit : Word := 1#32 <<< 2
/-- `CAPSLOCK`. -/
def capslock : Word := 1#32 <<< 3
/-- `NUMLOCK`. -/
def numlock : Word := 1#32 <<< 4
/-- `SCROLLLOCK`. -/
def scrolllock : Word := 1#32 <<< 5
/-- `E0ESC`. -/
def e0esc : Word := 1#32 <<< 6

/-! ### Tables -/

/-- `NO`. -/
def noKey : Byte := 0#8

/-- `KEY_DEL`. -/
def keyDel : Byte := 0xE9#8

/-- A table with 256 entries: the first ones in a row, and some that are given by their index.
The others are 0. -/
def kbdTable (row : List Byte) (designated : List (Byte × Byte)) (data : Byte) : Byte :=
  (designated.lookup data).getD (row.getD data.toNat 0#8)

/-- `shiftcode`. -/
def shiftcode : Byte → Byte :=
  kbdTable []
    [(0x1D#8, ctlBit.setWidth 8), (0x2A#8, shiftBit.setWidth 8), (0x36#8, shiftBit.setWidth 8),
      (0x38#8, altBit.setWidth 8), (0x9D#8, ctlBit.setWidth 8), (0xB8#8, altBit.setWidth 8)]

/-- `togglecode`. -/
def togglecode : Byte → Byte :=
  kbdTable []
    [(0x3A#8, capslock.setWidth 8), (0x45#8, numlock.setWidth 8), (0x46#8, scrolllock.setWidth 8)]

/-- The cursor keys, `KEY_HOME` to `KEY_DEL`, which are the same in all tables but for the index
of `KEY_HOME`. -/
def kbdCursor (home : Byte) : List (Byte × Byte) :=
  [(home, 0xE0#8), (0xC8#8, 0xE2#8), (0xC9#8, 0xE6#8), (0xCB#8, 0xE4#8), (0xCD#8, 0xE5#8),
    (0xCF#8, 0xE1#8), (0xD0#8, 0xE3#8), (0xD1#8, 0xE7#8), (0xD2#8, 0xE8#8), (0xD3#8, keyDel)]

/-- The keypad, from `0x47` on. -/
def kbdKeypad : List Byte := text "789-456+1230."

/-- `normalmap`. -/
def normalmap : Byte → Byte :=
  kbdTable
    ([noKey, 0x1B#8] ++ text "1234567890-=\x08\t" ++ text "qwertyuiop[]\n" ++ [noKey] ++
      text "asdfghjkl;'`" ++ [noKey] ++ text "\\zxcvbnm,./" ++ [noKey] ++ text "*" ++
      [noKey] ++ text " " ++ List.replicate 13 noKey ++ kbdKeypad)
    ([(0x9C#8, chr '\n'), (0xB5#8, chr '/')] ++ kbdCursor 0xC7#8)

/-- `shiftmap`. -/
def shiftmap : Byte → Byte :=
  kbdTable
    ([noKey, 0x1B#8] ++ text "!@#$%^&*()_+\x08\t" ++ text "QWERTYUIOP\x7b\x7d\n" ++ [noKey] ++
      text "ASDFGHJKL:\"~" ++ [noKey] ++ text "|ZXCVBNM<>?" ++ [noKey] ++ text "*" ++
      [noKey] ++ text " " ++ List.replicate 13 noKey ++ kbdKeypad)
    ([(0x9C#8, chr '\n'), (0xB5#8, chr '/')] ++ kbdCursor 0xC7#8)

/-- `C(x)`. -/
def ctlKey (x : Char) : Byte := chr x - chr '@'

/-- `ctlmap`. -/
def ctlmap : Byte → Byte :=
  kbdTable
    (List.replicate 16 noKey ++ "QWERTYUIOP".toList.map ctlKey ++ [noKey, noKey, chr '\r', noKey] ++
      "ASDFGHJKL".toList.map ctlKey ++ List.replicate 4 noKey ++ "\\ZXCVBNM".toList.map ctlKey ++
      [noKey, noKey, ctlKey '/', noKey, noKey])
    ((0xB5#8, ctlKey '/') :: kbdCursor 0x97#8)

/-- `charcode`. -/
def charcode : List (Byte → Byte) := [normalmap, shiftmap, ctlmap, ctlmap]

/-! ### Scan codes -/

/-- What `kbd_proc_data` does besides. -/
inductive KbdEvent where
  /-- `cprintf(msg)`. -/
  | cprintf (msg : String)
  /-- `outb(port, data)`. -/
  | outb (port : Word) (data : Byte)
deriving DecidableEq, Repr

/-- What `kbd_proc_data` returns, and what it leaves in its static `shift`. -/
structure KbdResult where
  c : Word
  shift : Word
  log : List KbdEvent := []
deriving DecidableEq

/-- `if (shift & CAPSLOCK)`: the other case of a letter. -/
def capsLetter (shift c : Word) : Word :=
  if shift &&& capslock ≠ 0#32 then
    if (chr 'a').setWidth 32 ≤ c ∧ c ≤ (chr 'z').setWidth 32 then
      c + ((chr 'A').setWidth 32 - (chr 'a').setWidth 32)
    else if (chr 'A').setWidth 32 ≤ c ∧ c ≤ (chr 'Z').setWidth 32 then
      c + ((chr 'a').setWidth 32 - (chr 'A').setWidth 32)
    else c
  else c

/-- `kbd_proc_data` behind the escape codes and the releases: key `data` is pressed. -/
def kbdPress (data : Byte) (shift : Word) : KbdResult :=
  let shift := shift ||| (shiftcode data).setWidth 32
  let shift := shift ^^^ (togglecode data).setWidth 32
  let c := (charcode.getD (shift &&& (ctlBit ||| shiftBit)).toNat normalmap data).setWidth 32
  let c := capsLetter shift c
  -- Ctrl-Alt-Del
  let log := if ~~~shift &&& (ctlBit ||| altBit) = 0#32 ∧ c = keyDel.setWidth 32 then
    [KbdEvent.cprintf "Rebooting!\n", KbdEvent.outb 0x92#32 0x3#8] else []
  { c, shift, log }

/-- `kbd_proc_data`, once it has read `data`. -/
def kbdDecode (data : Byte) (shift : Word) : KbdResult :=
  if data = 0xE0#8 then { c := 0#32, shift := shift ||| e0esc }
  else if data &&& 0x80#8 ≠ 0#8 then
    -- behind an escape code the key is the code with its bit 7
    let data := if shift &&& e0esc ≠ 0#32 then data else data &&& 0x7F#8
    { c := 0#32, shift := shift &&& ~~~((shiftcode data).setWidth 32 ||| e0esc) }
  -- a press behind an escape code; the bit is gone before the tables are looked at
  else if shift &&& e0esc ≠ 0#32 then kbdPress (data ||| 0x80#8) (shift &&& ~~~e0esc)
  else kbdPress data shift

/-! ### The controller -/

/-- A byte in the keyboard controller, and the other bits of the status register when it is the
next one. -/
structure KbcByte where
  stat : Byte
  data : Byte

/-- The keyboard controller, the static `shift`, and what `kbd_proc_data` has done besides. -/
structure Kbd where
  queue : List KbcByte := []
  shift : Word := 0#32
  log : List KbdEvent := []

/-- `inb(KBSTATP)`. -/
def kbstatp (queue : List KbcByte) : Byte := queue.head?.elim 0#8 fun b => b.stat ||| kbsDib

/-- `inb(KBDATAP)`: the next byte is gone then. -/
def kbdatap (queue : List KbcByte) : Byte × List KbcByte :=
  (queue.head?.elim 0#8 KbcByte.data, queue.tail)

/-- `kbd_proc_data()`. -/
def kbdProcData (k : Kbd) : Word × Kbd :=
  let stat := kbstatp k.queue
  if stat &&& kbsDib = 0#8 then (-1#32, k)
  -- a byte of the mouse is left where it is
  else if stat &&& kbsTerr ≠ 0#8 then (-1#32, k)
  else
    let (data, queue) := kbdatap k.queue
    let r := kbdDecode data k.shift
    (r.c, ⟨queue, r.shift, k.log ++ r.log⟩)

/-- A call that does not return -1 has read a byte. -/
theorem kbdProcData_length_lt {k : Kbd} (h : (kbdProcData k).1 ≠ -1#32) :
    (kbdProcData k).2.queue.length < k.queue.length := by
  unfold kbdProcData at h ⊢
  cases hq : k.queue with
  | nil =>
    rw [hq] at h
    exact absurd rfl h
  | cons b queue =>
    rw [hq] at h
    dsimp only at h ⊢
    split_ifs with hdib hterr
    · rw [if_pos hdib] at h
      exact absurd rfl h
    · rw [if_neg hdib, if_pos hterr] at h
      exact absurd rfl h
    · exact Nat.lt_succ_self _

/-- `cons_intr(kbd_proc_data)`. -/
def consIntrKbd (k : Kbd) (cons : Cons) : Kbd × Cons :=
  let c := (kbdProcData k).1
  let k' := (kbdProcData k).2
  if _h : c = -1#32 then (k', cons)
  else if c = 0#32 then consIntrKbd k' cons
  else consIntrKbd k' (consPut cons (c.setWidth 8))
termination_by k.queue.length
decreasing_by all_goals exact kbdProcData_length_lt _h

/-- `cons_getc()` with the keyboard controller, and with what it finds at the serial port. -/
def consGetcKbd (serialExists : Bool) (serial : List Byte) (k : Kbd) (cons : Cons) :
    Byte × Kbd × Cons :=
  -- both devices are polled, also when their interrupts are off
  let cons := serialIntr serialExists serial cons
  let (k, cons) := consIntrKbd k cons
  if cons.rpos ≠ cons.wpos then
    let c := cons.buf cons.rpos
    let cons := { cons with rpos := cons.rpos + 1 }
    (c, k, if cons.rpos = consbufsize then { cons with rpos := 0 } else cons)
  else (0#8, k, cons)

end Jos
