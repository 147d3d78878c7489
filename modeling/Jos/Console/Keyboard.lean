import Jos.Kern.Kbd
import Mathlib.Data.List.GetD
import Mathlib.Tactic.IntervalCases

/-!
# Scan codes

A scan code with bit 7 is the release of a key, and the code `0xE0` in front of a code stands for
one of the keys that came later, which have a number with bit 7 here. `kbd_proc_data` does not keep
which keys are down. It keeps one word of bits, and what they say after any codes can be told from
the events of the keys alone: a modifier is on if the last event at one of its keys was a press,
and a lock if its key was pressed an odd number of times (`kbd_modifiers`). So a modifier with two
keys goes off when one of them is released, and a lock whose key repeats goes on and off. The
machine is rebooted exactly when Del is pressed while both Ctrl and Alt are on
(`kbd_reboots_iff`).
-/

namespace Jos

/-! ### Events -/

/-- A key goes down or comes up. -/
inductive KeyEvent where
  | press (key : Byte)
  | release (key : Byte)
deriving DecidableEq

namespace KeyEvent

/-- Which key it is. -/
def key : KeyEvent → Byte
  | press key => key
  | release key => key

/-- The key goes down. -/
def isPress : KeyEvent → Bool
  | press _ => true
  | release _ => false

end KeyEvent

/-- The event that a scan code stands for, behind an escape code or not. -/
def keyEvent (esc : Bool) (code : Byte) : Option KeyEvent :=
  if code = 0xE0#8 then none
  else if code &&& 0x80#8 ≠ 0#8 then
    some (.release (if esc then code else code &&& 0x7F#8))
  else some (.press (if esc then code ||| 0x80#8 else code))

/-- The codes end with an escape code. -/
def escPending (codes : List Byte) : Bool := codes.getLast? = some 0xE0#8

/-- The events of the codes, in their order. -/
def keyEvents (codes : List Byte) : List KeyEvent :=
  (List.range codes.length).filterMap fun i =>
    keyEvent (escPending (codes.take i)) (codes.getD i 0#8)

/-- The last event at one of `keys` was a press. -/
def pressedLast (keys : List Byte) (events : List KeyEvent) : Bool :=
  (events.filter fun e => decide (e.key ∈ keys)).getLast?.any KeyEvent.isPress

/-- One of `keys` was pressed, or repeated, an odd number of times in all. -/
def pressedOdd (keys : List Byte) (events : List KeyEvent) : Bool :=
  decide ((events.countP fun e => e.isPress && decide (e.key ∈ keys)) % 2 = 1)

/-- What the bits of `shift` say after `codes`. -/
structure Modifiers (codes : List Byte) (shift : Word) : Prop where
  /-- The two shift keys. -/
  upper : shift &&& shiftBit ≠ 0#32 ↔ pressedLast [0x2A#8, 0x36#8] (keyEvents codes)
  /-- The control key, and the right one. -/
  ctl : shift &&& ctlBit ≠ 0#32 ↔ pressedLast [0x1D#8, 0x9D#8] (keyEvents codes)
  /-- The Alt key, and the right one. -/
  alt : shift &&& altBit ≠ 0#32 ↔ pressedLast [0x38#8, 0xB8#8] (keyEvents codes)
  caps : shift &&& capslock ≠ 0#32 ↔ pressedOdd [0x3A#8] (keyEvents codes)
  num : shift &&& numlock ≠ 0#32 ↔ pressedOdd [0x45#8] (keyEvents codes)
  scroll : shift &&& scrolllock ≠ 0#32 ↔ pressedOdd [0x46#8] (keyEvents codes)
  escape : shift &&& e0esc ≠ 0#32 ↔ escPending codes
  /-- There are no other bits. -/
  other : shift < 0x80#32

/-- `shift` once the codes have been read. -/
def kbdShift (codes : List Byte) (shift : Word) : Word :=
  codes.foldl (fun shift data => (kbdDecode data shift).shift) shift

/-! ### One more code -/

section Events

variable {codes : List Byte} {events : List KeyEvent} {keys : List Byte}

theorem kbdShift_append (codes codes' : List Byte) (shift : Word) :
    kbdShift (codes ++ codes') shift = kbdShift codes' (kbdShift codes shift) :=
  List.foldl_append

theorem kbdShift_concat (codes : List Byte) (data : Byte) (shift : Word) :
    kbdShift (codes ++ [data]) shift = (kbdDecode data (kbdShift codes shift)).shift :=
  kbdShift_append codes [data] shift

theorem escPending_concat (codes : List Byte) (data : Byte) :
    escPending (codes ++ [data]) = decide (data = 0xE0#8) := by
  rw [escPending, List.getLast?_concat]
  simp only [Option.some.injEq]

theorem keyEvents_concat (codes : List Byte) (data : Byte) :
    keyEvents (codes ++ [data]) =
      keyEvents codes ++ (keyEvent (escPending codes) data).toList := by
  -- the events of the codes before do not depend on the new one
  have hpre : ∀ i ∈ List.range codes.length,
      keyEvent (escPending ((codes ++ [data]).take i)) ((codes ++ [data]).getD i 0#8) =
        keyEvent (escPending (codes.take i)) (codes.getD i 0#8) := by
    intro i hi
    have hi := List.mem_range.mp hi
    rw [List.take_append_of_le_length hi.le, List.getD_append _ _ _ _ hi]
  have hlast : keyEvent (escPending ((codes ++ [data]).take codes.length))
      ((codes ++ [data]).getD codes.length 0#8) = keyEvent (escPending codes) data := by
    rw [List.take_left, List.getD_append_right _ _ _ _ le_rfl, Nat.sub_self]
    rfl
  rw [keyEvents, List.length_append, List.length_singleton, List.range_succ,
    List.filterMap_append, List.filterMap_congr hpre, keyEvents]
  congr 1
  rw [List.filterMap_cons, hlast, List.filterMap_nil]
  cases keyEvent (escPending codes) data <;> rfl

theorem pressedLast_concat (keys : List Byte) (events : List KeyEvent) (e : KeyEvent) :
    pressedLast keys (events ++ [e]) =
      if e.key ∈ keys then e.isPress else pressedLast keys events := by
  rw [pressedLast, List.filter_append]
  split_ifs with h
  · rw [List.filter_cons_of_pos (by simpa using h), List.filter_nil, List.getLast?_concat]
    rfl
  · rw [List.filter_cons_of_neg (by simpa using h), List.filter_nil, List.append_nil]
    rfl

theorem pressedOdd_concat (keys : List Byte) (events : List KeyEvent) (e : KeyEvent) :
    pressedOdd keys (events ++ [e]) =
      (pressedOdd keys events ^^ (e.isPress && decide (e.key ∈ keys))) := by
  rw [pressedOdd, pressedOdd, List.countP_append, List.countP_singleton]
  generalize events.countP _ = n
  -- one press more makes an even number odd and an odd one even
  cases e.isPress && decide (e.key ∈ keys) with
  | false => simp
  | true =>
    rw [if_pos rfl, Bool.xor_true, ← decide_not]
    exact decide_eq_decide.mpr (by omega)

@[simp] theorem pressedLast_nil (events : List KeyEvent) : pressedLast [] events = false := by
  simp [pressedLast]

@[simp] theorem pressedOdd_nil (events : List KeyEvent) : pressedOdd [] events = false := by
  simp [pressedOdd]

end Events

/-! ### Bits -/

/-- The keys of the modifier in bit `i`. -/
def modifierKeys : ℕ → List Byte
  | 0 => [0x2A#8, 0x36#8]
  | 1 => [0x1D#8, 0x9D#8]
  | 2 => [0x38#8, 0xB8#8]
  | _ => []

/-- The key of the lock in bit `i`. -/
def lockKeys : ℕ → List Byte
  | 3 => [0x3A#8]
  | 4 => [0x45#8]
  | 5 => [0x46#8]
  | _ => []

theorem shiftcode_bit (key : Byte) (i : ℕ) :
    ((shiftcode key).setWidth 32).getLsbD i = decide (key ∈ modifierKeys i) := by
  -- the table has bytes: each of the 8 bits for all keys, and no others
  obtain hi | hi := Nat.lt_or_ge i 8
  · interval_cases i <;> revert key <;> decide +kernel
  · have hkeys : modifierKeys i = [] := by
      unfold modifierKeys
      split <;> first | rfl | omega
    rw [BitVec.getLsbD_setWidth, BitVec.getLsbD_of_ge _ _ hi, hkeys]
    simp

theorem togglecode_bit (key : Byte) (i : ℕ) :
    ((togglecode key).setWidth 32).getLsbD i = decide (key ∈ lockKeys i) := by
  obtain hi | hi := Nat.lt_or_ge i 8
  · interval_cases i <;> revert key <;> decide +kernel
  · have hkeys : lockKeys i = [] := by
      unfold lockKeys
      split <;> first | rfl | omega
    rw [BitVec.getLsbD_setWidth, BitVec.getLsbD_of_ge _ _ hi, hkeys]
    simp

/-- No bit is both that of a modifier and that of a lock, and the bit of the escape code is
neither. -/
theorem lockKeys_of_modifier {i : ℕ} {key : Byte} (h : key ∈ modifierKeys i) : lockKeys i = [] := by
  unfold modifierKeys at h
  split at h <;> first | rfl | cases h

theorem bit_getLsbD {i : ℕ} (hi : i < 32) (j : ℕ) :
    (1#32 <<< i).getLsbD j = decide (j = i) := by
  rw [← BitVec.twoPow_eq, BitVec.getLsbD_twoPow, decide_eq_true hi, Bool.true_and]
  exact decide_eq_decide.mpr eq_comm

/-- A bit of a word, as the code tests it. -/
theorem and_bit_ne_zero (shift : Word) {i : ℕ} (hi : i < 32) :
    shift &&& 1#32 <<< i ≠ 0#32 ↔ shift.getLsbD i = true := by
  constructor
  · intro hne
    by_contra hbit
    apply hne
    rw [← BitVec.twoPow_eq, BitVec.and_twoPow, if_neg hbit]
  · intro hbit hzero
    have hself := congrArg (fun x : Word => x.getLsbD i) hzero
    simp only [BitVec.getLsbD_and, hbit, bit_getLsbD hi, BitVec.getLsbD_zero] at hself
    simp at hself

theorem e0esc_bit (i : ℕ) : e0esc.getLsbD i = decide (i = 6) := bit_getLsbD (by decide) i

/-- The word of bits says what the events say: bit 6 is about the last code, and each of the
others about the keys that it has. -/
structure BitsOf (codes : List Byte) (shift : Word) : Prop where
  escape : shift.getLsbD 6 = escPending codes
  keys : ∀ i ≠ 6, shift.getLsbD i =
    (pressedLast (modifierKeys i) (keyEvents codes) ^^ pressedOdd (lockKeys i) (keyEvents codes))

section Step

variable {codes : List Byte} {shift : Word}

/-- A press sets the modifier of the key, or changes its lock. -/
theorem kbdPress_bit (key : Byte) (shift : Word) (i : ℕ) :
    (kbdPress key shift).shift.getLsbD i =
      ((shift.getLsbD i || decide (key ∈ modifierKeys i)) ^^ decide (key ∈ lockKeys i)) := by
  simp only [kbdPress, BitVec.getLsbD_xor, BitVec.getLsbD_or, shiftcode_bit, togglecode_bit]

/-- The bits behind the press of a key. -/
theorem bitsOf_press (h : BitsOf codes shift) {key data : Byte} {shift' : Word}
    (hevent : keyEvent (escPending codes) data = some (.press key)) (hdata : data ≠ 0xE0#8)
    (hshift : ∀ i ≠ 6, shift'.getLsbD i = shift.getLsbD i) (hesc : shift'.getLsbD 6 = false) :
    BitsOf (codes ++ [data]) (kbdPress key shift').shift := by
  -- bit 6 is off, and no key has it; the others change with the key
  constructor
  · rw [kbdPress_bit, hesc, escPending_concat]
    simp [modifierKeys, lockKeys, hdata]
  · intro i hi
    rw [kbdPress_bit, hshift i hi, h.keys i hi, keyEvents_concat, hevent, Option.toList,
      pressedLast_concat, pressedOdd_concat]
    by_cases hmod : key ∈ modifierKeys i
    · -- the bit of a modifier is never changed by a lock
      rw [lockKeys_of_modifier hmod]
      simp [KeyEvent.key, KeyEvent.isPress, hmod]
    · simp only [KeyEvent.key, KeyEvent.isPress, hmod, if_false, decide_false, Bool.or_false,
        Bool.true_and, Bool.xor_assoc]
      rfl

/-- The bits behind a release. -/
theorem bitsOf_release (h : BitsOf codes shift) {key data : Byte}
    (hevent : keyEvent (escPending codes) data = some (.release key)) (hdata : data ≠ 0xE0#8) :
    BitsOf (codes ++ [data]) (shift &&& ~~~((shiftcode key).setWidth 32 ||| e0esc)) := by
  -- bit 6 is taken out as well
  constructor
  · rw [escPending_concat]
    simp [e0esc_bit, hdata]
  · intro i hi
    rw [BitVec.getLsbD_and, BitVec.getLsbD_not, BitVec.getLsbD_or, shiftcode_bit, e0esc_bit,
      h.keys i hi, keyEvents_concat, hevent, Option.toList, pressedLast_concat, pressedOdd_concat]
    by_cases hmod : key ∈ modifierKeys i
    · rw [lockKeys_of_modifier hmod]
      simp [KeyEvent.key, KeyEvent.isPress, hmod]
    · have hlt : 32 ≤ i → shift.getLsbD i = false := BitVec.getLsbD_of_ge _ _
      rw [h.keys i hi] at hlt
      by_cases hwide : i < 32
      · simp [KeyEvent.key, KeyEvent.isPress, hmod, hi, hwide]
      · simp [KeyEvent.key, KeyEvent.isPress, hmod, hwide, hlt (not_lt.mp hwide)]

/-- `kbd_proc_data` keeps what the bits say. -/
theorem bitsOf_step (h : BitsOf codes shift) (data : Byte) :
    BitsOf (codes ++ [data]) (kbdDecode data shift).shift := by
  have htest : shift &&& e0esc ≠ 0#32 ↔ escPending codes = true := by
    rw [← h.escape]
    exact and_bit_ne_zero shift (by decide)
  rw [kbdDecode]
  by_cases hesc : data = 0xE0#8
  · -- the escape code
    subst hesc
    rw [if_pos rfl]
    constructor
    · rw [escPending_concat, BitVec.getLsbD_or, e0esc_bit]
      simp
    · intro i hi
      have hevent : keyEvent (escPending codes) 0xE0#8 = none := if_pos rfl
      rw [BitVec.getLsbD_or, e0esc_bit, keyEvents_concat, hevent, h.keys i hi]
      simp [hi]
  rw [if_neg hesc]
  by_cases hrel : data &&& 0x80#8 ≠ 0#8
  · rw [if_pos hrel]
    -- a release; behind an escape code the key keeps its bit 7
    refine bitsOf_release h ?_ hesc
    rw [keyEvent, if_neg hesc, if_pos hrel]
    simp only [htest]
  rw [if_neg hrel]
  by_cases hpre : shift &&& e0esc ≠ 0#32
  · rw [if_pos hpre]
    -- a press behind an escape code, whose bit goes off first
    refine bitsOf_press h ?_ hesc ?_ ?_
    · rw [keyEvent, if_neg hesc, if_neg hrel, if_pos (htest.mp hpre)]
    · intro i hi
      obtain hwide | hwide := Nat.lt_or_ge i 32
      · rw [BitVec.getLsbD_and, BitVec.getLsbD_not, e0esc_bit]
        simp only [hi, hwide, decide_true, decide_false, Bool.not_false, Bool.and_true]
      · rw [BitVec.getLsbD_of_ge _ _ hwide, BitVec.getLsbD_of_ge _ _ hwide]
    · simp [e0esc_bit]
  · -- a press with no escape code before it
    have hesc' : escPending codes = false := by
      rw [← Bool.not_eq_true, ← htest]
      exact hpre
    rw [if_neg hpre]
    refine bitsOf_press h ?_ hesc (fun _ _ => rfl) (by rw [h.escape, hesc'])
    rw [keyEvent, if_neg hesc, if_neg hrel, hesc', if_neg Bool.false_ne_true]

end Step

theorem bitsOf_kbdShift (codes : List Byte) : BitsOf codes (kbdShift codes 0#32) := by
  -- the last code is the newest
  induction codes using List.reverseRecOn with
  | nil =>
    constructor
    · rfl
    · intro i _
      rw [kbdShift, List.foldl_nil, BitVec.getLsbD_zero]
      rfl
  | append_singleton codes data ih =>
    rw [kbdShift_concat]
    exact bitsOf_step ih data

theorem BitsOf.modifiers {codes : List Byte} {shift : Word} (h : BitsOf codes shift) :
    Modifiers codes shift := by
  -- bits 0 to 2 have no lock, bits 3 to 5 no modifier
  have hmod : ∀ i < 3, (shift &&& 1#32 <<< i ≠ 0#32 ↔
      pressedLast (modifierKeys i) (keyEvents codes) = true) := by
    intro i hi
    rw [and_bit_ne_zero shift (by omega), h.keys i (by omega)]
    interval_cases i <;> simp [lockKeys]
  have hlock : ∀ i, 3 ≤ i → i < 6 → (shift &&& 1#32 <<< i ≠ 0#32 ↔
      pressedOdd (lockKeys i) (keyEvents codes) = true) := by
    intro i hge hi
    rw [and_bit_ne_zero shift (by omega), h.keys i (by omega)]
    interval_cases i <;> simp [modifierKeys]
  refine ⟨hmod 0 (by decide), hmod 1 (by decide), hmod 2 (by decide), hlock 3 le_rfl (by decide),
    hlock 4 (by decide) (by decide), hlock 5 (by decide) (by decide), ?_, ?_⟩
  · rw [← h.escape]
    exact and_bit_ne_zero shift (by decide)
  · -- no key has a bit from 7 on
    have hpow : (0x80#32).toNat = 2 ^ 7 := rfl
    rw [BitVec.lt_def, hpow]
    refine Nat.lt_pow_two_of_testBit _ fun i hi => ?_
    have hbit := h.keys i (by omega)
    have hmodKeys : modifierKeys i = [] := by
      unfold modifierKeys
      split <;> first | rfl | omega
    have hlockKeys : lockKeys i = [] := by
      unfold lockKeys
      split <;> first | rfl | omega
    rw [hmodKeys, hlockKeys] at hbit
    rw [BitVec.testBit_toNat, hbit, pressedLast_nil, pressedOdd_nil, Bool.xor_false]

/-- After any scan codes: a modifier is on if and only if the last event at one of its keys was a
press, a lock if and only if its key was pressed an odd number of times, and the bit of the escape
code if and only if this was the last one. There are no other bits. -/
theorem kbd_modifiers (codes : List Byte) : Modifiers codes (kbdShift codes 0#32) :=
  (bitsOf_kbdShift codes).modifiers

/-! ### Ctrl-Alt-Del -/

/-- Behind `codes`, the code is that of Del, which is pressed, and Ctrl and Alt are on. -/
structure CtrlAltDel (codes : List Byte) (data : Byte) : Prop where
  del : keyEvent (escPending codes) data = some (.press 0xD3#8)
  ctl : pressedLast [0x1D#8, 0x9D#8] (keyEvents codes)
  alt : pressedLast [0x38#8, 0xB8#8] (keyEvents codes)

/-- With Ctrl, only one key has the code of Del. -/
theorem ctlmap_eq_keyDel_iff (key : Byte) : ctlmap key = keyDel ↔ key = 0xD3#8 := by
  revert key
  decide +kernel

/-- What the caps lock does to a letter is no matter for Del. -/
theorem capsLetter_eq_keyDel_iff (shift : Word) (c : Byte) :
    capsLetter shift (c.setWidth 32) = keyDel.setWidth 32 ↔ c = keyDel := by
  unfold capsLetter
  split_ifs
  all_goals revert c; decide +kernel

/-- With Ctrl, the index of the table is 2 or 3. -/
theorem charcode_ctl {shift : Word} (h : shift &&& ctlBit ≠ 0#32) :
    charcode.getD (shift &&& (ctlBit ||| shiftBit)).toNat normalmap = ctlmap := by
  have hctl : (shift &&& (ctlBit ||| shiftBit)) &&& ctlBit = shift &&& ctlBit := by
    rw [BitVec.and_assoc]
    rfl
  have hle : (shift &&& (ctlBit ||| shiftBit)).toNat ≤ 3 := by
    rw [BitVec.toNat_and]
    exact Nat.and_le_right
  -- of the four indices these have the bit of Ctrl
  have htwo : ∀ n ≤ 3, BitVec.ofNat 32 n &&& ctlBit ≠ 0#32 → n = 2 ∨ n = 3 := by decide
  rw [← hctl] at h
  rw [← BitVec.setWidth_eq (shift &&& (ctlBit ||| shiftBit)), ← BitVec.ofNat_toNat] at h
  obtain hindex | hindex := htwo _ hle h
  · rw [hindex]
    rfl
  · rw [hindex]
    rfl

/-- Both bits are set, as the code tests it. -/
theorem not_and_eq_zero_iff (shift : Word) :
    ~~~shift &&& (ctlBit ||| altBit) = 0#32 ↔
      shift &&& ctlBit ≠ 0#32 ∧ shift &&& altBit ≠ 0#32 := by
  rw [ctlBit, altBit, and_bit_ne_zero shift (by decide), and_bit_ne_zero shift (by decide)]
  constructor
  · -- neither bit is among those that are off
    intro hzero
    have hbit : ∀ i, (~~~shift &&& (1#32 <<< 1 ||| 1#32 <<< 2)).getLsbD i = false := by
      intro i
      rw [hzero, BitVec.getLsbD_zero]
    exact ⟨by simpa using hbit 1, by simpa using hbit 2⟩
  · rintro ⟨hctl, halt⟩
    apply BitVec.eq_of_getLsbD_eq
    intro i hi
    rw [BitVec.getLsbD_and, BitVec.getLsbD_not, BitVec.getLsbD_or, bit_getLsbD (by decide),
      bit_getLsbD (by decide), BitVec.getLsbD_zero]
    by_cases h1 : i = 1
    · rw [h1, hctl]
      rfl
    by_cases h2 : i = 2
    · rw [h2, halt]
      rfl
    simp [h1, h2]

/-- Del has no bit of its own, and it is the only key whose code with Ctrl is that of Del. -/
theorem kbdPress_log (key : Byte) (shift : Word) :
    (kbdPress key shift).log =
      if key = 0xD3#8 ∧ shift &&& ctlBit ≠ 0#32 ∧ shift &&& altBit ≠ 0#32 then
        [.cprintf "Rebooting!\n", .outb 0x92#32 0x3#8] else [] := by
  have hdel : (shift ||| (shiftcode 0xD3#8).setWidth 32) ^^^ (togglecode 0xD3#8).setWidth 32 =
      shift := by
    have hcode : (shiftcode 0xD3#8).setWidth 32 = 0#32 := by decide +kernel
    have htoggle : (togglecode 0xD3#8).setWidth 32 = 0#32 := by decide +kernel
    rw [hcode, htoggle, BitVec.or_zero, BitVec.xor_zero]
  simp only [kbdPress, not_and_eq_zero_iff]
  by_cases hkey : key = 0xD3#8
  · subst hkey
    rw [hdel]
    by_cases hctl : shift &&& ctlBit ≠ 0#32
    · have hmap := (ctlmap_eq_keyDel_iff 0xD3#8).mpr rfl
      rw [charcode_ctl hctl, hmap]
      have hcaps := (capsLetter_eq_keyDel_iff shift keyDel).mpr rfl
      simp only [hcaps, and_true, true_and]
    · rw [if_neg fun h => hctl h.1.1, if_neg fun h => hctl h.2.1]
  · rw [if_neg, if_neg fun h => hkey h.1]
    rintro ⟨⟨hctl, -⟩, hc⟩
    rw [charcode_ctl hctl, capsLetter_eq_keyDel_iff, ctlmap_eq_keyDel_iff] at hc
    exact hkey hc

/-- What `kbd_proc_data` does besides, by the event that the code stands for. -/
theorem kbdDecode_log {codes : List Byte} {shift : Word} (h : BitsOf codes shift) (data : Byte) :
    (kbdDecode data shift).log =
      if keyEvent (escPending codes) data = some (.press 0xD3#8) ∧ shift &&& ctlBit ≠ 0#32 ∧
          shift &&& altBit ≠ 0#32 then
        [.cprintf "Rebooting!\n", .outb 0x92#32 0x3#8] else [] := by
  have htest : shift &&& e0esc ≠ 0#32 ↔ escPending codes = true := by
    rw [← h.escape]
    exact and_bit_ne_zero shift (by decide)
  rw [kbdDecode, keyEvent]
  by_cases hesc : data = 0xE0#8
  · rw [if_pos hesc, if_pos hesc, if_neg fun hc => nomatch hc.1]
  rw [if_neg hesc, if_neg hesc]
  by_cases hrel : data &&& 0x80#8 ≠ 0#8
  · have hno : ∀ key, ¬(some (KeyEvent.release key) = some (.press 0xD3#8) ∧
        shift &&& ctlBit ≠ 0#32 ∧ shift &&& altBit ≠ 0#32) := fun key hc => nomatch hc.1
    rw [if_pos hrel, if_pos hrel, if_neg (hno _)]
  rw [if_neg hrel, if_neg hrel]
  by_cases hpre : shift &&& e0esc ≠ 0#32
  · -- the bit of the escape code is not among those that are asked for
    have hctl : shift &&& ~~~e0esc &&& ctlBit = shift &&& ctlBit := by
      rw [BitVec.and_assoc]
      rfl
    have halt : shift &&& ~~~e0esc &&& altBit = shift &&& altBit := by
      rw [BitVec.and_assoc]
      rfl
    rw [if_pos hpre, if_pos (htest.mp hpre), kbdPress_log, hctl, halt]
    simp only [Option.some.injEq, KeyEvent.press.injEq]
  · rw [if_neg hpre, if_neg (htest.not.mp hpre), kbdPress_log]
    simp only [Option.some.injEq, KeyEvent.press.injEq]

/-- After any scan codes, the next one reboots the machine if and only if it is that of Del, and
Ctrl and Alt are on; otherwise it does nothing besides. -/
theorem kbd_reboots_iff (codes : List Byte) (data : Byte) :
    ((kbdDecode data (kbdShift codes 0#32)).log =
        [.cprintf "Rebooting!\n", .outb 0x92#32 0x3#8] ↔ CtrlAltDel codes data) ∧
      ((kbdDecode data (kbdShift codes 0#32)).log = [] ↔ ¬CtrlAltDel codes data) := by
  have hmod := (bitsOf_kbdShift codes).modifiers
  have hcad : CtrlAltDel codes data ↔ keyEvent (escPending codes) data = some (.press 0xD3#8) ∧
      kbdShift codes 0#32 &&& ctlBit ≠ 0#32 ∧ kbdShift codes 0#32 &&& altBit ≠ 0#32 := by
    rw [hmod.ctl, hmod.alt]
    exact ⟨fun h => ⟨h.del, h.ctl, h.alt⟩, fun h => ⟨h.1, h.2.1, h.2.2⟩⟩
  rw [kbdDecode_log (bitsOf_kbdShift codes)]
  by_cases h : CtrlAltDel codes data
  · rw [if_pos (hcad.mp h)]
    exact ⟨iff_of_true rfl h, iff_of_false (List.cons_ne_nil _ _) (not_not.mpr h)⟩
  · rw [if_neg (mt hcad.mpr h)]
    exact ⟨iff_of_false (List.cons_ne_nil _ _).symm h, iff_of_true rfl h⟩

end Jos
