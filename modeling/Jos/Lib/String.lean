import Jos.Lib.Printfmt

/-!
# Strings

`strtol`, `strchr` and `strcmp` of `lib/string.c`. A string is the list of its characters
before the NUL, and a pointer into it is what is left of it; `[]` is where the NUL stands.
The first string of `strcmp` is in memory, the second one is a constant.

* `long` and `int` are 32 bits wide and wrap.
* A `char` is signed, so a character from `0x80` on is below every character constant.
-/

namespace Jos

/-- `while (*s == ' ' || *s == '\t') s++`. -/
def gobble : List Byte → List Byte
  | [] => []
  | ch :: s => if ch = chr ' ' ∨ ch = chr '\t' then gobble s else ch :: s

/-- The value of `*s` as a digit of some base; none, if it is not one. -/
def strtolDigit (ch : Byte) : Option Word :=
  if (chr '0').sle ch ∧ ch.sle (chr '9') then some (ch.signExtend 32 - (chr '0').signExtend 32)
  else if (chr 'a').sle ch ∧ ch.sle (chr 'z') then
    some (ch.signExtend 32 - (chr 'a').signExtend 32 + 10#32)
  else if (chr 'A').sle ch ∧ ch.sle (chr 'Z') then
    some (ch.signExtend 32 - (chr 'A').signExtend 32 + 10#32)
  else none

/-- The loop over the digits: `val` at the end of it, and where it stops. -/
def strtolDigits (base : Word) : List Byte → Word → Word × List Byte
  | [], val => (val, [])
  | ch :: s, val =>
    match strtolDigit ch with
    | none => (val, ch :: s)
    | some dig =>
      if base.sle dig then (val, ch :: s) else strtolDigits base s (val * base + dig)

/-- The sign: `neg`, and what is behind it. -/
def strtolSign : List Byte → Bool × List Byte
  | [] => (false, [])
  | ch :: s =>
    if ch = chr '+' then (false, s) else if ch = chr '-' then (true, s) else (false, ch :: s)

/-- The prefix that tells the base: the base, and what is behind it. -/
def strtolBase (base : Word) (s : List Byte) : Word × List Byte :=
  if (base = 0#32 ∨ base = 16#32) ∧ s.getD 0 0#8 = chr '0' ∧ s.getD 1 0#8 = chr 'x' then
    (16#32, s.drop 2)
  else if base = 0#32 ∧ s.getD 0 0#8 = chr '0' then (8#32, s.drop 1)
  else if base = 0#32 then (10#32, s)
  else (base, s)

/-- `strtol(s, &end, base)`: what it returns, and `end`. -/
def strtol (s : List Byte) (base : Word) : Word × List Byte :=
  let (neg, s) := strtolSign (gobble s)
  let (base, s) := strtolBase base s
  let (val, s) := strtolDigits base s 0#32
  (if neg then -val else val, s)

/-- `strchr(s, c)`: how far into the string the first `c` is. -/
def strchr : List Byte → Byte → Option ℕ
  | [], _ => none
  | ch :: s, c => if ch = c then some 0 else (strchr s c).map (· + 1)

/-- `*p`. -/
def deref (m : Memory) (p : Word) : Except FmtAbort Byte :=
  match m p with
  | some b => .ok b
  | none => .error (.fault p)

/-- `strcmp(p, q)`. -/
def strcmp (m : Memory) (p : Word) : List Byte → Except FmtAbort Word
  | [] => do
    let b ← deref m p
    pure (b.setWidth 32 - 0#32)
  | c :: q => do
    let b ← deref m p
    if b ≠ 0#8 ∧ b = c then strcmp m (p + 1#32) q
    else pure (b.setWidth 32 - c.setWidth 32)

end Jos
