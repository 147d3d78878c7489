import Jos.Console.Input
import Jos.Console.Keyboard
import Mathlib.Data.List.TakeWhile

/-!
# What is typed can be read

From the keyboard to `cons_getc`. `cons_intr(kbd_proc_data)` takes what the controller has up to
the first byte that comes from the mouse, or was damaged, and puts the characters that come out of
it into the input buffer (`consIntrKbd_eq`), so a call of `cons_getc` is one of the model of the
buffer, with these characters for what it finds at the keyboard (`consGetcKbd_eq`). The strokes of
a text come out as this text, whatever locks are on (`kbdChars_typeText`), and together with the
queue that the buffer is this is `typed_text_read`: whoever reads gets the text in order,
whichever way the codes and the calls are interleaved.

A byte from the mouse is not skipped. It is still the next one when the call is over, and so
nothing that is typed later is ever read: `mouse_blocks_keyboard`.
-/

namespace Jos

/-! ### What comes out of scan codes -/

/-- The characters that come out of the codes. -/
def kbdChars : List Byte → Word → List Byte
  | [], _ => []
  | data :: codes, shift =>
    let r := kbdDecode data shift
    (if r.c = 0#32 then [] else [r.c.setWidth 8]) ++ kbdChars codes r.shift

/-- What `kbd_proc_data` does besides, while it reads the codes. -/
def kbdLog : List Byte → Word → List KbdEvent
  | [], _ => []
  | data :: codes, shift =>
    let r := kbdDecode data shift
    r.log ++ kbdLog codes r.shift

theorem kbdChars_append (codes codes' : List Byte) (shift : Word) :
    kbdChars (codes ++ codes') shift =
      kbdChars codes shift ++ kbdChars codes' (kbdShift codes shift) := by
  induction codes generalizing shift with
  | nil => rfl
  | cons data codes ih =>
    rw [List.cons_append, kbdChars, kbdChars, ih, List.append_assoc]
    rfl

/-- The caps lock makes a letter of a letter. -/
theorem capsLetter_lt (shift : Word) (c : Byte) : capsLetter shift (c.setWidth 32) < 0x100#32 := by
  unfold capsLetter
  split_ifs
  -- each of the arms is a function of the one byte `c`
  all_goals revert c; decide +kernel

theorem kbdPress_c_lt (key : Byte) (shift : Word) : (kbdPress key shift).c < 0x100#32 :=
  capsLetter_lt _ _

/-- What is returned for a code is a `uint8_t`, and never -1. -/
theorem kbdDecode_c_lt (data : Byte) (shift : Word) : (kbdDecode data shift).c < 0x100#32 := by
  have hzero : (0#32 : Word) < 0x100#32 := by decide
  unfold kbdDecode
  -- the escape code and a key that comes up return 0
  split
  · exact hzero
  split
  · exact hzero
  split
  · exact kbdPress_c_lt _ _
  · exact kbdPress_c_lt _ _

theorem kbdDecode_byte_ne_zero {data : Byte} {shift : Word} (hc : (kbdDecode data shift).c ≠ 0#32) :
    (kbdDecode data shift).c.setWidth 8 ≠ 0#8 := by
  intro hzero
  -- nothing is cut off, because the character is below `0x100`
  have hlt : (kbdDecode data shift).c.toNat < 2 ^ 8 := kbdDecode_c_lt data shift
  have hnat := congrArg BitVec.toNat hzero
  rw [BitVec.toNat_setWidth, Nat.mod_eq_of_lt hlt] at hnat
  exact hc (BitVec.eq_of_toNat_eq hnat)

/-! ### Emptying the controller -/

/-- The byte comes from the keyboard, undamaged. -/
def KbcByte.fromKbd (b : KbcByte) : Bool := decide (b.stat &&& kbsTerr = 0#8)

/-- What `kbd_proc_data` reads before it returns -1. -/
def Kbd.readable (k : Kbd) : List Byte := (k.queue.takeWhile KbcByte.fromKbd).map KbcByte.data

/-- The keyboard once that has been read. -/
def Kbd.drained (k : Kbd) : Kbd :=
  ⟨k.queue.dropWhile KbcByte.fromKbd, kbdShift k.readable k.shift,
    k.log ++ kbdLog k.readable k.shift⟩

section Drain

variable {k : Kbd} {cons : Cons}

theorem kbdProcData_nil (shift : Word) (log : List KbdEvent) :
    kbdProcData ⟨[], shift, log⟩ = (-1#32, ⟨[], shift, log⟩) := by
  have hdib : kbstatp [] &&& kbsDib = 0#8 := by decide
  rw [kbdProcData, if_pos hdib]

theorem kbstatp_cons (b : KbcByte) (queue : List KbcByte) :
    kbstatp (b :: queue) &&& kbsDib ≠ 0#8 ∧
      (kbstatp (b :: queue) &&& kbsTerr = 0#8 ↔ b.fromKbd = true) := by
  obtain ⟨stat, data⟩ := b
  -- `kbstatp` sets `KBS_DIB` while something is queued and leaves `KBS_TERR` alone
  have hstat : ∀ stat : Byte, (stat ||| kbsDib) &&& kbsDib ≠ 0#8 ∧
      ((stat ||| kbsDib) &&& kbsTerr = 0#8 ↔ decide (stat &&& kbsTerr = 0#8) = true) := by decide
  exact hstat stat

/-- A byte from the keyboard is read. -/
theorem kbdProcData_cons {b : KbcByte} (hb : b.fromKbd = true) (queue : List KbcByte) (shift : Word)
    (log : List KbdEvent) :
    kbdProcData ⟨b :: queue, shift, log⟩ =
      ((kbdDecode b.data shift).c,
        ⟨queue, (kbdDecode b.data shift).shift, log ++ (kbdDecode b.data shift).log⟩) := by
  obtain ⟨hdib, hterr⟩ := kbstatp_cons b queue
  rw [kbdProcData, if_neg hdib, if_neg (not_not.mpr (hterr.mpr hb))]
  rfl

/-- Any other byte is not. -/
theorem kbdProcData_terr {b : KbcByte} (hb : b.fromKbd = false) (queue : List KbcByte)
    (shift : Word) (log : List KbdEvent) :
    kbdProcData ⟨b :: queue, shift, log⟩ = (-1#32, ⟨b :: queue, shift, log⟩) := by
  obtain ⟨hdib, hterr⟩ := kbstatp_cons b queue
  have hne : kbstatp (b :: queue) &&& kbsTerr ≠ 0#8 := by
    rw [ne_eq, hterr, hb]
    exact Bool.false_ne_true
  rw [kbdProcData, if_neg hdib, if_pos hne]

/-- `cons_intr(kbd_proc_data)` puts the characters that come out of the codes into the buffer. -/
theorem consIntrKbd_eq (k : Kbd) (cons : Cons) :
    consIntrKbd k cons = (k.drained, kbdIntr (kbdChars k.readable k.shift) cons) := by
  obtain ⟨queue, shift, log⟩ := k
  -- one round of the `while` loop for each byte that is queued
  induction queue generalizing shift log cons with
  | nil =>
    rw [consIntrKbd, kbdProcData_nil, dif_pos rfl]
    simp [Kbd.drained, Kbd.readable, kbdShift, kbdLog, kbdChars, kbdIntr, consIntr]
  | cons b queue ih =>
    rw [consIntrKbd]
    -- `KBS_TERR` decides whether the loop goes on
    cases hb : b.fromKbd with
    | false =>
      -- -1 is returned, the loop ends and the byte stays in the queue
      have hread : (Kbd.mk (b :: queue) shift log).readable = [] := by
        simp [Kbd.readable, hb]
      have hdrop : (b :: queue).dropWhile KbcByte.fromKbd = b :: queue := by simp [hb]
      rw [kbdProcData_terr hb, dif_pos rfl, Kbd.drained, hread, hdrop]
      simp [kbdShift, kbdLog, kbdChars, kbdIntr, consIntr]
    | true =>
      have hread : (Kbd.mk (b :: queue) shift log).readable =
          b.data :: (Kbd.mk queue (kbdDecode b.data shift).shift
            (log ++ (kbdDecode b.data shift).log)).readable := by
        simp [Kbd.readable, hb]
      have hdrop : (b :: queue).dropWhile KbcByte.fromKbd = queue.dropWhile KbcByte.fromKbd := by
        simp [hb]
      -- the loop ends at -1, which no code returns
      have hne : (kbdDecode b.data shift).c ≠ -1#32 := by
        intro hc
        have hlt := kbdDecode_c_lt b.data shift
        rw [hc] at hlt
        exact absurd hlt (by decide)
      -- the rest of the loop starts from what the first byte left
      have hkbd : (Kbd.mk (b :: queue) shift log).drained =
          (Kbd.mk queue (kbdDecode b.data shift).shift
            (log ++ (kbdDecode b.data shift).log)).drained := by
        rw [Kbd.drained, Kbd.drained, hread, hdrop, kbdLog, List.append_assoc]
        rfl
      rw [kbdProcData_cons hb, dif_neg hne, ih, ih, hkbd, hread, kbdChars]
      by_cases hc : (kbdDecode b.data shift).c = 0#32
      · -- `if (c == 0) continue`: nothing is stored for this byte
        rw [if_pos hc, if_pos hc]
        rfl
      · -- the character is no NUL, because it is one byte
        have hbyte := kbdDecode_byte_ne_zero hc
        rw [if_neg hc, if_neg hc, List.singleton_append, kbdIntr, kbdIntr, consIntr, if_neg hbyte]

/-- A call of `cons_getc` is one of the model of the buffer, which finds at the keyboard what comes
out of the controller. -/
theorem consGetcKbd_eq (e : Bool) (port : List Byte) (k : Kbd) (cons : Cons) :
    consGetcKbd e port k cons =
      ((consGetc e port (kbdChars k.readable k.shift) cons).1, k.drained,
        (consGetc e port (kbdChars k.readable k.shift) cons).2) := by
  simp only [consGetcKbd, consGetc, consIntrKbd_eq]
  split_ifs <;> rfl

end Drain

/-! ### Strokes -/

/-- A key, and whether it is typed with the shift key. -/
structure Stroke where
  key : Byte
  shifted : Bool

/-- The scan codes of a stroke: the keys go down and come up again. -/
def Stroke.codes (s : Stroke) : List Byte :=
  if s.shifted then [0x2A#8, s.key, s.key ||| 0x80#8, 0xAA#8] else [s.key, s.key ||| 0x80#8]

/-- A row of a keyboard, from the key `first` on: what is printed on the lower and on the upper
half of the keys. -/
def keyRow (first : ℕ) (lower upper : String) : List (Byte × Byte × Byte) :=
  ((text lower).zip (text upper)).mapIdx fun i c => (BitVec.ofNat 8 (first + i), c)

/-- A keyboard for American English. -/
def keyRows : List (Byte × Byte × Byte) :=
  keyRow 0x01 "\x1b1234567890-=\x08\t" "\x1b!@#$%^&*()_+\x08\t" ++
  keyRow 0x10 "qwertyuiop[]\n" "QWERTYUIOP\x7b\x7d\n" ++
  keyRow 0x1E "asdfghjkl;'`" "ASDFGHJKL:\"~" ++
  keyRow 0x2B "\\zxcvbnm,./" "|ZXCVBNM<>?" ++
  keyRow 0x39 " " " "

/-- A letter in the other case. -/
def otherCase (c : Byte) : Byte :=
  if chr 'a' ≤ c ∧ c ≤ chr 'z' then c - 0x20#8
  else if chr 'A' ≤ c ∧ c ≤ chr 'Z' then c + 0x20#8
  else c

/-- How a character is typed. With the caps lock on, a letter is typed as one of the other
case. -/
def strokeFor (caps : Bool) (c : Byte) : Option Stroke :=
  let c := if caps then otherCase c else c
  keyRows.findSome? fun k =>
    if k.2.1 = c then some ⟨k.1, false⟩ else if k.2.2 = c then some ⟨k.1, true⟩ else none

/-- The scan codes of a text. -/
def typeText (caps : Bool) (s : List Byte) : List Byte :=
  s.flatMap fun c => (strokeFor caps c).elim [] Stroke.codes

/-- A character that is on the keyboard. -/
def Typable (c : Byte) : Prop :=
  (chr ' ' ≤ c ∧ c < 0x7F#8) ∨ c ∈ [0x1B#8, 0x08#8, chr '\t', chr '\n']

instance (c : Byte) : Decidable (Typable c) := inferInstanceAs (Decidable (_ ∨ _))

/-- Ctrl and Shift are off, and no escape code is waiting. -/
def Idle (shift : Word) : Prop := shift &&& (shiftBit ||| ctlBit ||| e0esc) = 0#32

instance (shift : Word) : Decidable (Idle shift) := inferInstanceAs (Decidable (_ = _))

/-- The caps lock is on. -/
def capsOn (shift : Word) : Bool := decide (shift &&& capslock ≠ 0#32)

/-- What a stroke has to be. -/
structure Stroke.Types (s : Stroke) (caps : Bool) (c : Byte) : Prop where
  down : s.key ≠ 0xE0#8 ∧ s.key &&& 0x80#8 = 0#8
  up : s.key ||| 0x80#8 ≠ 0xE0#8 ∧ (s.key ||| 0x80#8) &&& 0x80#8 ≠ 0#8 ∧
    (s.key ||| 0x80#8) &&& 0x7F#8 = s.key
  plain : shiftcode s.key = 0#8 ∧ togglecode s.key = 0#8
  char : capsLetter (if caps then capslock else 0#32)
    ((if s.shifted then shiftmap else normalmap) s.key |>.setWidth 32) = c.setWidth 32

instance (s : Stroke) (caps : Bool) (c : Byte) : Decidable (s.Types caps c) :=
  decidable_of_iff (_ ∧ _ ∧ _ ∧ _)
    ⟨fun h => ⟨h.1, h.2.1, h.2.2.1, h.2.2.2⟩, fun h => ⟨h.down, h.up, h.plain, h.char⟩⟩

/-- The tables of the code are those of the keyboard. -/
theorem strokeFor_types (caps : Bool) (c : Byte) :
    if Typable c then (strokeFor caps c).any fun s => decide (s.Types caps c)
    else strokeFor caps c = none := by
  -- the 256 characters, with and without the caps lock
  revert caps c
  decide +kernel

section Strokes

variable {shift : Word} {s : Stroke} {c : Byte}

theorem Idle.and_tables (h : Idle shift) : shift &&& (ctlBit ||| shiftBit) = 0#32 := by
  have hmask : (shiftBit ||| ctlBit ||| e0esc) &&& (ctlBit ||| shiftBit) = ctlBit ||| shiftBit := by
    decide
  rw [← hmask, ← BitVec.and_assoc, h, BitVec.zero_and]

theorem Idle.and_e0esc (h : Idle shift) : shift &&& e0esc = 0#32 := by
  have hmask : (shiftBit ||| ctlBit ||| e0esc) &&& e0esc = e0esc := by decide
  rw [← hmask, ← BitVec.and_assoc, h, BitVec.zero_and]

/-- Bits that are not there can be taken away. -/
theorem and_not_of_and_eq_zero {x m : Word} (h : x &&& m = 0#32) : x &&& ~~~m = x := by
  calc x &&& ~~~m
      = x &&& m ||| x &&& ~~~m := by rw [h, BitVec.zero_or]
    _ = x &&& (m ||| ~~~m) := BitVec.and_or_distrib_left.symm
    _ = x &&& BitVec.allOnes 32 := by rw [BitVec.or_not_self]
    _ = x := BitVec.and_allOnes

/-- Only the caps lock matters for a letter. -/
theorem capsLetter_capsOn (shift c : Word) :
    capsLetter shift c = capsLetter (if capsOn shift then capslock else 0#32) c := by
  -- no other bit of `shift` is looked at
  have hon : (if capsOn shift then capslock else 0#32) &&& capslock ≠ 0#32 ↔
      shift &&& capslock ≠ 0#32 := by
    unfold capsOn
    by_cases h : shift &&& capslock ≠ 0#32
    · rw [if_pos (decide_eq_true h)]
      exact iff_of_true (by decide) h
    · rw [if_neg (by rwa [decide_eq_true_iff])]
      exact iff_of_false (by decide) h
  simp only [capsLetter, hon]

/-- A key that is no modifier and no lock goes down. -/
theorem kbdDecode_down (hs : s.Types (capsOn shift) c) (hesc : shift &&& e0esc = 0#32)
    (htable : charcode.getD (shift &&& (ctlBit ||| shiftBit)).toNat normalmap =
      if s.shifted then shiftmap else normalmap) :
    (kbdDecode s.key shift).c = c.setWidth 32 ∧ (kbdDecode s.key shift).shift = shift := by
  obtain ⟨hcode, htoggle⟩ := hs.plain
  -- not the escape code, not a key that comes up, and no escape code before it
  rw [kbdDecode, if_neg hs.down.1, if_neg (not_not.mpr hs.down.2), if_neg (not_not.mpr hesc)]
  -- neither `shiftcode` nor `togglecode` has a bit for this key, so `shift` stays
  simp only [kbdPress, hcode, htoggle, BitVec.setWidth_zero, BitVec.or_zero, BitVec.xor_zero,
    htable, and_true]
  rw [capsLetter_capsOn, hs.char]

/-- The key comes up. -/
theorem kbdDecode_up (hs : s.Types (capsOn shift) c) (hesc : shift &&& e0esc = 0#32) :
    (kbdDecode (s.key ||| 0x80#8) shift).c = 0#32 ∧
      (kbdDecode (s.key ||| 0x80#8) shift).shift = shift := by
  -- the key is `data & 0x7F`, and its bits are taken out of `shift`
  rw [kbdDecode, if_neg hs.up.1, if_pos hs.up.2.1, if_neg (not_not.mpr hesc), hs.up.2.2]
  dsimp only
  rw [hs.plain.1, BitVec.setWidth_zero, BitVec.zero_or]
  exact ⟨rfl, and_not_of_and_eq_zero hesc⟩

/-- What the shift key changes. -/
theorem Idle.shifted (h : Idle shift) :
    (shift ||| shiftBit) &&& e0esc = 0#32 ∧ capsOn (shift ||| shiftBit) = capsOn shift ∧
      (shift ||| shiftBit) &&& (ctlBit ||| shiftBit) = shiftBit ∧
      (shift ||| shiftBit) &&& ~~~(shiftBit ||| e0esc) = shift := by
  have hmask : (shiftBit ||| ctlBit ||| e0esc) &&& (shiftBit ||| e0esc) = shiftBit ||| e0esc := by
    decide
  -- neither bit is set before
  have hoff : shift &&& (shiftBit ||| e0esc) = 0#32 := by
    rw [← hmask, ← BitVec.and_assoc, h, BitVec.zero_and]
  refine ⟨?_, ?_, ?_, ?_⟩
  · rw [BitVec.and_or_distrib_right, h.and_e0esc]
    decide
  · -- the shift key has no bit of the caps lock
    have hcaps : shiftBit &&& capslock = 0#32 := by decide
    rw [capsOn, capsOn, BitVec.and_or_distrib_right, hcaps, BitVec.or_zero]
  · rw [BitVec.and_or_distrib_right, h.and_tables]
    decide
  · -- taking the bits away again gives the `shift` of the beginning
    rw [BitVec.and_or_distrib_right, and_not_of_and_eq_zero hoff]
    have hgone : shiftBit &&& ~~~(shiftBit ||| e0esc) = 0#32 := by decide
    rw [hgone, BitVec.or_zero]

/-- The shift key goes down. -/
theorem kbdDecode_shift_down (h : Idle shift) :
    (kbdDecode 0x2A#8 shift).c = 0#32 ∧ (kbdDecode 0x2A#8 shift).shift = shift ||| shiftBit := by
  obtain ⟨-, -, htable, -⟩ := h.shifted
  -- the tables have the bit `SHIFT` and no character for the left shift key
  have hcode : (shiftcode 0x2A#8).setWidth 32 = shiftBit := by decide +kernel
  have htoggle : (togglecode 0x2A#8).setWidth 32 = 0#32 := by decide +kernel
  have hmap : charcode.getD shiftBit.toNat normalmap 0x2A#8 = 0#8 := by decide +kernel
  rw [kbdDecode, if_neg (by decide), if_neg (by decide), if_neg (not_not.mpr h.and_e0esc)]
  simp only [kbdPress, hcode, htoggle, BitVec.xor_zero, htable, hmap, and_true]
  rw [capsLetter_capsOn]
  -- the caps lock does nothing to a NUL
  cases capsOn (shift ||| shiftBit) <;> decide

/-- The shift key comes up. -/
theorem kbdDecode_shift_up (h : Idle shift) :
    (kbdDecode 0xAA#8 (shift ||| shiftBit)).c = 0#32 ∧
      (kbdDecode 0xAA#8 (shift ||| shiftBit)).shift = shift := by
  obtain ⟨hesc, -, -, hback⟩ := h.shifted
  -- `0xAA` is the left shift key with the bit that says up
  have hcode : (shiftcode (0xAA#8 &&& 0x7F#8)).setWidth 32 = shiftBit := by decide +kernel
  rw [kbdDecode, if_neg (by decide), if_pos (by decide), if_neg (not_not.mpr hesc)]
  dsimp only
  rw [hcode]
  exact ⟨rfl, hback⟩

/-- One stroke: its character comes out, and `shift` is as it was. -/
theorem kbdChars_stroke (h : Idle shift) (hs : s.Types (capsOn shift) c) (hc : c ≠ 0#8) :
    kbdChars s.codes shift = [c] ∧ kbdShift s.codes shift = shift := by
  -- a byte other than 0 is no NUL as a word either
  have hword : c.setWidth 32 ≠ 0#32 := by
    clear hs
    revert c
    decide +kernel
  unfold Stroke.codes
  cases hshifted : s.shifted with
  | false =>
    -- without the shift key the character is in `normalmap`
    have htable : charcode.getD (shift &&& (ctlBit ||| shiftBit)).toNat normalmap =
        if s.shifted then shiftmap else normalmap := by
      rw [h.and_tables, hshifted]
      rfl
    obtain ⟨hdown, hdown'⟩ := kbdDecode_down hs h.and_e0esc htable
    obtain ⟨hup, hup'⟩ := kbdDecode_up hs h.and_e0esc
    simp [kbdChars, kbdShift, hdown, hdown', hup, hup', hword]
  | true =>
    -- with it, the character is in `shiftmap`, and the lock is as it was
    obtain ⟨hesc, hcaps, hindex, -⟩ := h.shifted
    have htable : charcode.getD ((shift ||| shiftBit) &&& (ctlBit ||| shiftBit)).toNat normalmap =
        if s.shifted then shiftmap else normalmap := by
      rw [hindex, hshifted]
      rfl
    rw [← hcaps] at hs
    -- shift down, key down, key up, shift up
    obtain ⟨hpress, hpress'⟩ := kbdDecode_shift_down h
    obtain ⟨hdown, hdown'⟩ := kbdDecode_down hs hesc htable
    obtain ⟨hup, hup'⟩ := kbdDecode_up hs hesc
    obtain ⟨hrel, hrel'⟩ := kbdDecode_shift_up h
    simp [kbdChars, kbdShift, hpress, hpress', hdown, hdown', hup, hup', hrel, hrel', hword]

/-- The strokes of a text come out as the text, and `shift` is as it was. -/
theorem kbdChars_typeText (h : Idle shift) {s : List Byte} (hs : ∀ c ∈ s, Typable c) :
    kbdChars (typeText (capsOn shift) s) shift = s ∧
      kbdShift (typeText (capsOn shift) s) shift = shift := by
  -- `shift` is as before after each stroke, so the next one starts the same way
  induction s with
  | nil => exact ⟨rfl, rfl⟩
  | cons c s ih =>
    obtain ⟨hc, hs⟩ := List.forall_mem_cons.mp hs
    obtain ⟨hchars, hshift⟩ := ih hs
    have htypes := strokeFor_types (capsOn shift) c
    rw [if_pos hc, Option.any_eq_true] at htypes
    obtain ⟨stroke, hstroke, hok⟩ := htypes
    -- a NUL is not typable
    have hne : c ≠ 0#8 := by
      rintro rfl
      exact absurd hc (by decide)
    obtain ⟨hone, hone'⟩ := kbdChars_stroke h (of_decide_eq_true hok) hne
    have htype : typeText (capsOn shift) (c :: s) =
        stroke.codes ++ typeText (capsOn shift) s := by
      rw [typeText, List.flatMap_cons, hstroke]
      rfl
    rw [htype, kbdChars_append, kbdShift_append, hone, hone', hchars, hshift]
    exact ⟨rfl, rfl⟩

end Strokes

/-! ### Runs -/

/-- What happens at the keyboard. -/
inductive KbdOp where
  /-- The controller gets a byte. -/
  | sent (b : KbcByte)
  /-- A call of `kbd_intr`. -/
  | intr
  /-- A call of `cons_getc`, and what it finds at the serial port. -/
  | getc (port : List Byte)

/-- The keyboard and the input buffer, and what has happened to them: the bytes that the
controller got, and what `cons_getc` has returned. -/
structure KbdRun where
  kbd : Kbd
  cons : Cons := consInit
  sent : List KbcByte := []
  returned : List Byte := []

/-- One operation. -/
def KbdRun.step (e : Bool) (t : KbdRun) : KbdOp → KbdRun
  | .sent b =>
    { t with kbd := { t.kbd with queue := t.kbd.queue ++ [b] }, sent := t.sent ++ [b] }
  | .intr =>
    let r := consIntrKbd t.kbd t.cons
    { t with kbd := r.1, cons := r.2 }
  | .getc port =>
    let r := consGetcKbd e port t.kbd t.cons
    { t with kbd := r.2.1, cons := r.2.2, returned := t.returned ++ [r.1] }

/-- The operations one after the other. -/
def kbdRun (e : Bool) (shift : Word) (ops : List KbdOp) : KbdRun :=
  ops.foldl (KbdRun.step e) { kbd := { shift } }

/-- The characters that were typed so far. -/
def kbdTyped (e : Bool) (shift : Word) (ops : List KbdOp) : List Byte :=
  kbdChars ((kbdRun e shift ops).sent.map KbcByte.data) shift

/-- The byte that the controller gets. -/
def KbdOp.byte : KbdOp → Option KbcByte
  | .sent b => some b
  | _ => none

/-- The bytes that the controller gets. -/
def sentBytes (ops : List KbdOp) : List KbcByte := ops.filterMap KbdOp.byte

/-- Nothing but NULs comes from the serial port, or there is none. -/
def KbdOp.Silent (e : Bool) : KbdOp → Prop
  | .getc port => (ConsOp.serial port).bytes e = []
  | _ => True

instance (e : Bool) (op : KbdOp) : Decidable (op.Silent e) :=
  match op with
  | .sent _ => .isTrue trivial
  | .intr => .isTrue trivial
  | .getc port => inferInstanceAs (Decidable ((ConsOp.serial port).bytes e = []))

/-- The bytes that come from the keyboard and have been read are in the buffer as characters, or
were returned. -/
structure KbdRun.Queues (shift : Word) (t : KbdRun) (q : List Byte) : Prop where
  fromKbd : ∀ b ∈ t.kbd.queue, b.fromKbd = true
  codes : ∃ read, t.sent.map KbcByte.data = read ++ t.kbd.queue.map KbcByte.data ∧
    t.kbd.shift = kbdShift read shift ∧
    (ConsRun.mk t.cons (kbdChars read shift) t.returned []).Queues q

theorem kbdRun_concat (e : Bool) (shift : Word) (ops : List KbdOp) (op : KbdOp) :
    kbdRun e shift (ops ++ [op]) = (kbdRun e shift ops).step e op := by
  rw [kbdRun, List.foldl_append]
  rfl

theorem kbdRun_sent (e : Bool) (shift : Word) (ops : List KbdOp) :
    (kbdRun e shift ops).sent = sentBytes ops := by
  induction ops using List.reverseRecOn with
  | nil => rfl
  | append_singleton ops op ih =>
    rw [kbdRun_concat, sentBytes, List.filterMap_append, ← sentBytes, ← ih]
    cases op with
    | sent b => rfl
    | intr => exact (List.append_nil _).symm
    | getc port => exact (List.append_nil _).symm

/-- What was typed first stays. -/
theorem kbdTyped_mono {e : Bool} {shift : Word} {pre ops : List KbdOp} (h : pre <+: ops) :
    kbdTyped e shift pre <+: kbdTyped e shift ops := by
  obtain ⟨post, rfl⟩ := h
  rw [kbdTyped, kbdTyped, kbdRun_sent, kbdRun_sent, sentBytes, sentBytes, List.filterMap_append,
    List.map_append, kbdChars_append]
  exact List.prefix_append _ _

/-- Characters are no NULs. -/
theorem nonzero_kbdChars (codes : List Byte) (shift : Word) :
    nonzero (kbdChars codes shift) = kbdChars codes shift := by
  induction codes generalizing shift with
  | nil => rfl
  | cons data codes ih =>
    rw [kbdChars, nonzero, List.filter_append, ← nonzero, ← nonzero, ih]
    congr 1
    -- a code gives no character, or one that is no NUL
    split_ifs with hc
    · rfl
    · exact List.filter_cons_of_pos (by simpa using kbdDecode_byte_ne_zero hc)

section Steps

variable {e : Bool} {shift : Word} {t : KbdRun} {q : List Byte}

/-- With nothing from the mouse, everything is read. -/
theorem readable_of_fromKbd (h : ∀ b ∈ t.kbd.queue, b.fromKbd = true) :
    t.kbd.readable = t.kbd.queue.map KbcByte.data ∧ t.kbd.drained.queue = [] := by
  rw [Kbd.readable, List.takeWhile_eq_self_iff.mpr h]
  exact ⟨rfl, List.dropWhile_eq_nil_iff.mpr h⟩

/-- What was stored since the buffer was last empty is no matter here. -/
theorem ConsRun.Queues.forget {t : ConsRun} (h : t.Queues q) :
    (ConsRun.mk t.cons t.received t.returned []).Queues q :=
  ⟨h.holds, h.received, h.bytes, fun hc => absurd rfl hc⟩

theorem kbdStep_intr (e : Bool) (t : KbdRun) :
    t.step e .intr =
      { t with
        kbd := t.kbd.drained
        cons := kbdIntr (kbdChars t.kbd.readable t.kbd.shift) t.cons } := by
  simp only [KbdRun.step, consIntrKbd_eq]

theorem kbdStep_getc (e : Bool) (t : KbdRun) (port : List Byte) :
    t.step e (.getc port) =
      { t with
        kbd := t.kbd.drained
        cons := (consGetc e port (kbdChars t.kbd.readable t.kbd.shift) t.cons).2
        returned := t.returned ++
          [(consGetc e port (kbdChars t.kbd.readable t.kbd.shift) t.cons).1] } := by
  simp only [KbdRun.step, consGetcKbd_eq]

/-- What a call finds in the controller, when there is room for all that was typed. -/
structure KbdRun.Finds (shift : Word) (t : KbdRun) (q keys : List Byte) : Prop where
  keys_eq : kbdChars t.kbd.readable t.kbd.shift = keys
  nonzero_keys : nonzero keys = keys
  typed : kbdChars (t.sent.map KbcByte.data) shift = nonzero t.returned ++ (q ++ keys)
  room : (q ++ keys).length < consbufsize
  drained : ∀ (cons : Cons) (returned q' : List Byte),
    (ConsRun.mk cons (kbdChars (t.sent.map KbcByte.data) shift) returned []).Queues q' →
      KbdRun.Queues shift ⟨t.kbd.drained, cons, t.sent, returned⟩ q'

theorem KbdRun.Queues.finds (h : t.Queues shift q)
    (hroom : (kbdChars (t.sent.map KbcByte.data) shift).length ≤
      (nonzero t.returned).length + 511) : ∃ keys, t.Finds shift q keys := by
  obtain ⟨read, hsent, hshift, hq⟩ := h.codes
  obtain ⟨hread, hempty⟩ := readable_of_fromKbd h.fromKbd
  rw [← hread] at hsent
  -- what was typed is what was returned, then the buffer, then what is at the controller
  have htyped : kbdChars (t.sent.map KbcByte.data) shift =
      nonzero t.returned ++ (q ++ kbdChars t.kbd.readable t.kbd.shift) := by
    have hreceived : kbdChars read shift = nonzero t.returned ++ q := hq.received
    rw [hsent, kbdChars_append, ← hshift, hreceived, List.append_assoc]
  refine ⟨_, rfl, nonzero_kbdChars _ _, htyped, ?_, ?_⟩
  · -- at most 511 of them are not yet returned
    have hbuf : consbufsize = 512 := rfl
    rw [htyped, List.length_append] at hroom
    omega
  · -- after a call nothing is at the controller, so all the codes have been read
    intro cons returned q' hq'
    refine ⟨?_, t.sent.map KbcByte.data, ?_, ?_, hq'⟩
    · change ∀ b ∈ t.kbd.drained.queue, _
      rw [hempty]
      exact List.forall_mem_nil _
    · change _ = _ ++ t.kbd.drained.queue.map KbcByte.data
      rw [hempty, List.map_nil, List.append_nil]
    · rw [hsent, kbdShift_append, ← hshift]
      rfl

/-- A call of `cons_getc` returns the oldest character that was typed and not yet returned, or 0
if there is none. -/
theorem kbdQueues_getc (h : t.Queues shift q) {keys port : List Byte} (hfind : t.Finds shift q keys)
    (hport : (ConsOp.serial port).bytes e = []) :
    (consGetcKbd e port t.kbd t.cons).1 = (q ++ keys).headD 0#8 ∧
      (t.step e (.getc port)).Queues shift (q ++ keys).tail := by
  obtain ⟨read, -, -, hq⟩ := h.codes
  -- the serial port adds nothing to what the buffer gets
  have hbytes : (ConsOp.getc port keys).bytes e = keys := by
    rw [ConsOp.bytes, hfind.nonzero_keys]
    exact congrArg (· ++ keys) hport
  have hroom := hfind.room
  rw [← hbytes] at hroom
  obtain ⟨hc, hstep⟩ := queues_getc hq hroom
  rw [hbytes] at hc hstep
  rw [consGetcKbd_eq, hfind.keys_eq, kbdStep_getc, hfind.keys_eq]
  refine ⟨hc, hfind.drained _ _ _ ?_⟩
  -- all that was typed has been received by the buffer now
  have hreceived : kbdChars read shift ++ keys = kbdChars (t.sent.map KbcByte.data) shift := by
    have hread : kbdChars read shift = nonzero t.returned ++ q := hq.received
    rw [hfind.typed, hread, List.append_assoc]
  have hforget := hstep.forget
  simp only [ConsRun.step, hbytes, hreceived] at hforget
  exact hforget

theorem kbdQueues_step (h : t.Queues shift q) {op : KbdOp}
    (hkbd : ∀ b, op = .sent b → b.fromKbd = true) (hsilent : op.Silent e)
    (hroom : (kbdChars (t.sent.map KbcByte.data) shift).length ≤
      (nonzero t.returned).length + 511) :
    ∃ q', (t.step e op).Queues shift q' := by
  obtain ⟨keys, hfind⟩ := h.finds hroom
  -- a byte that is sent waits at the controller, a call moves all of them into the buffer
  cases op with
  | sent b =>
    obtain ⟨read, hsent, hshift, hq⟩ := h.codes
    refine ⟨q, ?_, read, ?_, hshift, hq⟩
    · exact List.forall_mem_append.mpr ⟨h.fromKbd, List.forall_mem_singleton.mpr (hkbd b rfl)⟩
    · simp only [KbdRun.step, List.map_append, hsent, List.append_assoc]
  | intr =>
    obtain ⟨read, -, -, hq⟩ := h.codes
    have hroom' := hfind.room
    rw [← hfind.nonzero_keys] at hroom'
    -- there is room, so the buffer holds the new characters behind the old ones
    have hholds : (kbdIntr keys t.cons).Holds consbufsize (q ++ (ConsOp.kbd keys).bytes e) :=
      consIntr_holds hq.holds hroom'
    have hintr := queues_intr hq hholds
    have hread : kbdChars read shift = nonzero t.returned ++ q := hq.received
    rw [kbdStep_intr, hfind.keys_eq]
    refine ⟨q ++ keys, hfind.drained _ _ _ ?_⟩
    rw [ConsOp.bytes, hfind.nonzero_keys] at hintr
    rw [hfind.typed, ← List.append_assoc, ← hread]
    exact hintr.forget
  | getc port => exact ⟨_, (kbdQueues_getc h hfind hsilent).2⟩

end Steps

/-- The buffer holds what was typed and not yet returned, as long as that is at most 511
characters. -/
theorem kbdRun_queues {e : Bool} {shift : Word} {ops pre : List KbdOp}
    (hkbd : ∀ b ∈ sentBytes ops, b.fromKbd = true) (hsilent : ∀ op ∈ ops, op.Silent e)
    (hroom : ∀ pre, pre <+: ops → (kbdTyped e shift pre).length ≤
      (nonzero (kbdRun e shift pre).returned).length + 511) (hpre : pre <+: ops) :
    ∃ q, (kbdRun e shift pre).Queues shift q := by
  induction pre using List.reverseRecOn with
  | nil =>
    have hpos : 0 < consbufsize := by decide
    -- at the beginning everything is empty, and `rpos = wpos = 0`
    have hempty : (ConsRun.mk consInit [] [] []).Queues [] :=
      ⟨⟨hpos, hpos, rfl, fun i a ha => by cases ha⟩, rfl, List.forall_mem_nil _,
        fun hc => absurd rfl hc⟩
    exact ⟨[], List.forall_mem_nil _, [], rfl, rfl, hempty⟩
  | append_singleton pre op ih =>
    have hpre' := (List.prefix_append pre [op]).trans hpre
    have hop : op ∈ ops := hpre.subset (List.mem_append_right _ (List.mem_singleton_self op))
    obtain ⟨q, hq⟩ := ih hpre'
    rw [kbdRun_concat]
    refine kbdQueues_step hq ?_ (hsilent op hop) (hroom pre hpre')
    -- the last operation sends one of the bytes of the run
    rintro b rfl
    exact hkbd b (List.mem_filterMap.mpr ⟨_, hop, rfl⟩)

/-- What is typed can be read: in every state what was returned is a prefix of what was typed so
far, which is a prefix of the text, and a call returns 0 exactly when all that was typed so far
has been returned. In the end all of the text has been typed. -/
structure TextRead (e : Bool) (shift : Word) (s : List Byte) (ops : List KbdOp) : Prop where
  inOrder : ∀ pre, pre <+: ops →
    nonzero (kbdRun e shift pre).returned <+: kbdTyped e shift pre ∧ kbdTyped e shift pre <+: s
  empty : ∀ pre port, pre ++ [KbdOp.getc port] <+: ops →
    ((consGetcKbd e port (kbdRun e shift pre).kbd (kbdRun e shift pre).cons).1 = 0#8 ↔
      nonzero (kbdRun e shift pre).returned = kbdTyped e shift pre)
  whole : kbdTyped e shift ops = s
  shift_eq : kbdShift ((sentBytes ops).map KbcByte.data) shift = shift

/-- A text that is typed on the keyboard can be read by `cons_getc`, with any of the locks on, in
every interleaving of its scan codes, calls of `kbd_intr` and calls of `cons_getc` in which never
more than 511 characters are waiting and nothing comes from the mouse or the serial port. -/
theorem typed_text_read {e : Bool} {shift : Word} {s : List Byte} {ops : List KbdOp}
    (hidle : Idle shift) (hs : ∀ c ∈ s, Typable c)
    (hcodes : (sentBytes ops).map KbcByte.data = typeText (capsOn shift) s)
    (hkbd : ∀ b ∈ sentBytes ops, b.fromKbd = true) (hsilent : ∀ op ∈ ops, op.Silent e)
    (hroom : ∀ pre, pre <+: ops → (kbdTyped e shift pre).length ≤
      (nonzero (kbdRun e shift pre).returned).length + 511) :
    TextRead e shift s ops := by
  obtain ⟨hchars, hshift⟩ := kbdChars_typeText hidle hs
  have hwhole : kbdTyped e shift ops = s := by
    rw [kbdTyped, kbdRun_sent, hcodes, hchars]
  refine ⟨fun pre hpre => ?_, fun pre port hpre => ?_, hwhole, by rw [hcodes, hshift]⟩
  · -- what was typed is what was returned and more, and the rest is typed behind it
    obtain ⟨q, hq⟩ := kbdRun_queues hkbd hsilent hroom hpre
    obtain ⟨keys, hfind⟩ := hq.finds (hroom pre hpre)
    constructor
    · rw [kbdTyped, hfind.typed]
      exact List.prefix_append _ _
    · rw [← hwhole]
      exact kbdTyped_mono hpre
  · -- the call returns the first character that is waiting, and none of them is a NUL
    have hpre' := (List.prefix_append pre [KbdOp.getc port]).trans hpre
    have hport : (ConsOp.serial port).bytes e = [] :=
      hsilent (.getc port) (hpre.subset (List.mem_append_right _ (List.mem_singleton_self _)))
    obtain ⟨q, hq⟩ := kbdRun_queues hkbd hsilent hroom hpre'
    obtain ⟨keys, hfind⟩ := hq.finds (hroom pre hpre')
    obtain ⟨hc, -⟩ := kbdQueues_getc hq hfind hport
    have hbytes : ∀ b ∈ q ++ keys, b ≠ 0#8 := by
      obtain ⟨read, -, -, hcons⟩ := hq.codes
      refine List.forall_mem_append.mpr ⟨hcons.bytes, fun b hb => ?_⟩
      rw [← hfind.nonzero_keys] at hb
      simpa using (List.mem_filter.mp hb).2
    rw [hc, headD_eq_zero_iff hbytes, kbdTyped, hfind.typed]
    exact ⟨fun h => by rw [h, List.append_nil], fun h => List.self_eq_append_right.mp h⟩

/-- `Hi` with the caps lock on, and three calls. -/
theorem typed_text_read_hi : TextRead false capslock (text "Hi")
    [.sent ⟨0x14#8, 0x23#8⟩, .sent ⟨0x14#8, 0xA3#8⟩, .sent ⟨0x14#8, 0x2A#8⟩, .getc [],
      .sent ⟨0x14#8, 0x17#8⟩, .intr, .sent ⟨0x14#8, 0x97#8⟩, .getc [], .sent ⟨0x14#8, 0xAA#8⟩,
      .getc []] := by
  refine typed_text_read (by decide) (by decide) (by decide +kernel) (by decide) (by decide) ?_
  -- there are not even 511 characters
  intro pre hpre
  refine (kbdTyped_mono hpre).length_le.trans (le_trans ?_ (Nat.le_add_left 511 _))
  rw [kbdTyped, kbdRun_sent]
  decide +kernel

/-! ### The mouse -/

/-- The operation is a call. -/
def KbdOp.isCall : KbdOp → Bool
  | .sent _ => false
  | _ => true

/-- Two runs of which only the first one gets more bytes behind `b`. -/
structure SameBut (b : KbcByte) (more : List KbcByte) (t t' : KbdRun) : Prop where
  cons : t.cons = t'.cons
  returned : t.returned = t'.returned
  shift : t.kbd.shift = t'.kbd.shift
  log : t.kbd.log = t'.kbd.log
  queue : ∃ front, t.kbd.queue = front ++ b :: more ∧ t'.kbd.queue = front ++ [b]

section Mouse

variable {b : KbcByte} {more : List KbcByte} {t t' : KbdRun}

/-- What is read, and what is left, does not depend on what is behind a byte from the mouse. -/
theorem takeWhile_append_of_not (hb : b.fromKbd = false) (front more : List KbcByte) :
    (front ++ b :: more).takeWhile KbcByte.fromKbd = front.takeWhile KbcByte.fromKbd ∧
      (front ++ b :: more).dropWhile KbcByte.fromKbd =
        front.dropWhile KbcByte.fromKbd ++ b :: more := by
  -- neither goes past `b`, whatever is in front of it
  induction front with
  | nil => simp [hb]
  | cons a front ih =>
    cases ha : a.fromKbd with
    | true => simpa [ha] using ih
    | false => simp [ha]

theorem SameBut.drained (hb : b.fromKbd = false) (h : SameBut b more t t') :
    t.kbd.readable = t'.kbd.readable ∧ t.kbd.drained.shift = t'.kbd.drained.shift ∧
      t.kbd.drained.log = t'.kbd.drained.log ∧
      ∃ front, t.kbd.drained.queue = front ++ b :: more ∧
        t'.kbd.drained.queue = front ++ [b] := by
  obtain ⟨front, hq, hq'⟩ := h.queue
  obtain ⟨htake, hdrop⟩ := takeWhile_append_of_not hb front more
  obtain ⟨htake', hdrop'⟩ := takeWhile_append_of_not hb front []
  -- what is in front of `b` is the same in both runs, and no more is read
  have hread : t.kbd.readable = t'.kbd.readable := by
    rw [Kbd.readable, Kbd.readable, hq, hq', htake, htake']
  refine ⟨hread, ?_, ?_, front.dropWhile KbcByte.fromKbd, ?_, ?_⟩
  · simp only [Kbd.drained, hread, h.shift]
  · simp only [Kbd.drained, hread, h.shift, h.log]
  · simp only [Kbd.drained, hq, hdrop]
  · simp only [Kbd.drained, hq', hdrop']

theorem SameBut.step_call (hb : b.fromKbd = false) (h : SameBut b more t t') (e : Bool) {op : KbdOp}
    (hop : op.isCall = true) : SameBut b more (t.step e op) (t'.step e op) := by
  obtain ⟨hread, hshift, hlog, hqueue⟩ := h.drained hb
  cases op with
  | sent c => cases hop
  | intr =>
    rw [kbdStep_intr, kbdStep_intr, hread, h.shift, h.cons]
    exact ⟨rfl, h.returned, hshift, hlog, hqueue⟩
  | getc port =>
    rw [kbdStep_getc, kbdStep_getc, hread, h.shift, h.cons, h.returned]
    exact ⟨rfl, rfl, hshift, hlog, hqueue⟩

theorem SameBut.step_sent (h : SameBut b more t t') (e : Bool) (c : KbcByte) :
    SameBut b (more ++ [c]) (t.step e (.sent c)) t' := by
  obtain ⟨front, hq, hq'⟩ := h.queue
  refine ⟨h.cons, h.returned, h.shift, h.log, front, ?_, hq'⟩
  simp [KbdRun.step, hq]

end Mouse

/-- Behind a byte from the mouse, or a damaged one, nothing that is typed makes a difference: the
calls return what they would have returned without it, the buffer and the modifiers are the same,
and the controller still has all of it. -/
theorem mouse_blocks_keyboard (e : Bool) (shift : Word) (pre post : List KbdOp) {b : KbcByte}
    (hb : b.fromKbd = false) :
    SameBut b (sentBytes post) (kbdRun e shift (pre ++ .sent b :: post))
      (kbdRun e shift (pre ++ .sent b :: post.filter KbdOp.isCall)) := by
  -- over the operations after the byte, the last one first
  induction post using List.reverseRecOn with
  | nil =>
    rw [List.filter_nil, kbdRun_concat]
    exact ⟨rfl, rfl, rfl, rfl, _, rfl, rfl⟩
  | append_singleton post op ih =>
    -- the last operation is a call, and made in both runs, or it sends one more byte in the first
    have hrun : kbdRun e shift (pre ++ .sent b :: (post ++ [op])) =
        (kbdRun e shift (pre ++ .sent b :: post)).step e op := by
      rw [← kbdRun_concat, List.append_assoc, List.cons_append]
    rw [hrun, List.filter_append, sentBytes, List.filterMap_append, ← sentBytes]
    cases hop : op.isCall with
    | false =>
      obtain ⟨c, rfl⟩ : ∃ c, op = .sent c := by
        cases op with
        | sent c => exact ⟨c, rfl⟩
        | intr => cases hop
        | getc port => cases hop
      rw [List.filter_cons_of_neg (by simp [hop]), List.filter_nil, List.append_nil]
      exact ih.step_sent e c
    | true =>
      -- a call sends nothing
      have hnone : [op].filterMap KbdOp.byte = [] := by
        cases op with
        | sent c => cases hop
        | intr => rfl
        | getc port => rfl
      have hrun' : kbdRun e shift (pre ++ .sent b :: (post.filter KbdOp.isCall ++ [op])) =
          (kbdRun e shift (pre ++ .sent b :: post.filter KbdOp.isCall)).step e op := by
        rw [← kbdRun_concat, List.append_assoc, List.cons_append]
      rw [List.filter_cons_of_pos hop, List.filter_nil, hrun', hnone, List.append_nil]
      exact ih.step_call hb e hop

/-- A byte from the mouse, and then a key. -/
theorem mouse_blocks_keyboard_key : SameBut ⟨kbsTerr, 0x08#8⟩ [⟨0#8, 0x1E#8⟩]
    (kbdRun false 0#32 [.sent ⟨kbsTerr, 0x08#8⟩, .sent ⟨0#8, 0x1E#8⟩, .getc []])
    (kbdRun false 0#32 [.sent ⟨kbsTerr, 0x08#8⟩, .getc []]) :=
  mouse_blocks_keyboard false 0#32 [] [.sent ⟨0#8, 0x1E#8⟩, .getc []] (by decide)

end Jos
