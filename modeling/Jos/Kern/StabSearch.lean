import Jos.Inc.Mmu
import Jos.Lib.Printfmt
import Jos.Library.Settles

/-!
# `stab_binsearch`

The records of `inc/stab.h`, and `stab_binsearch` of `kern/kdebug.c`.

The search is written once, over a `StabReader`: how an entry is read, and what happens to the
value of an operation on `int`s. The loops may go on for ever, so they have fuel. An entry that is
compared with `addr` in both directions is read once.

`stabSearch` is the search as the language has it: the stabs are an array, whose contents are
arbitrary, and the variables are `int`s of 32 bits. A run leaves the indices of the entries that it
reads. An operation on `int`s that overflows is undefined, so it ends the run.

`Kern/Kdebug.lean` has the searches of a table in memory, where the entries have addresses and a
read may fault.
-/

namespace Jos

/-! ### `inc/stab.h` -/

/-- `N_FUN`: procedure name. -/
def nFun : Byte := 0x24#8
/-- `N_SLINE`: text segment line number. -/
def nSline : Byte := 0x44#8
/-- `N_SO`: main source file name. -/
def nSo : Byte := 0x64#8
/-- `N_SOL`: included source file name. -/
def nSol : Byte := 0x84#8
/-- `N_PSYM`: parameter variable. -/
def nPsym : Byte := 0xA0#8

/-- A `struct Stab`, less `n_other`, which nothing reads. -/
structure Stab where
  nStrx : Word
  nType : Byte
  nDesc : BitVec 16
  nValue : Word
deriving DecidableEq, Repr

/-- `sizeof(struct Stab)`. -/
def sizeofStab : ℕ := 12

/-! ### The search -/

/-- The variables of `stab_binsearch`. -/
structure Binsearch where
  l : ℤ
  r : ℤ
  anyMatches : Bool
  regionLeft : ℤ
  regionRight : ℤ
  addr : Word

/-- How a search reads the stabs, what an operation on `int`s with the value `x` does, and why the
search stops when it has no fuel left. -/
structure StabReader (ω ε : Type) where
  nType : ℤ → Logged ω ε Byte
  nValue : ℤ → Logged ω ε Word
  int : ℤ → Logged ω ε ℤ
  looping : ε

/-- The range of an `int`. -/
def IsInt (x : ℤ) : Prop := -2 ^ 31 ≤ x ∧ x < 2 ^ 31

instance (x : ℤ) : Decidable (IsInt x) := inferInstanceAs (Decidable (_ ∧ _))

/-- The value of an operation on `int`s, or `e` when it overflows. -/
def cInt {ω ε : Type} (e : ε) (x : ℤ) : Logged ω ε ℤ :=
  if IsInt x then pure x else Logged.stop e

namespace StabReader

variable {ω ε : Type} (stabs : StabReader ω ε)

/-- `m >= low && stabs[m].n_type != type`. -/
def otherType (type : Word) (low m : ℤ) : Logged ω ε Bool :=
  if low ≤ m then do
    let ty ← stabs.nType m
    return ty.setWidth 32 ≠ type
  else return false

/-- `while (m >= low && stabs[m].n_type != type) m--`. -/
def scanLoop (type : Word) (low : ℤ) (fuel : ℕ) (m : ℤ) : Logged ω ε ℤ :=
  Logged.whileLoop (stabs.otherType type low) (fun m => stabs.int (m - 1)) stabs.looping fuel m

/-- The body of the loop of `stab_binsearch`. -/
def round (type : Word) (fuel : ℕ) (s : Binsearch) : Logged ω ε Binsearch := do
  let sum ← stabs.int (s.l + s.r)
  let trueM := sum.tdiv 2
  let m ← stabs.scanLoop type s.l fuel trueM
  if m < s.l then
    let l ← stabs.int (trueM + 1)
    return { s with l := l }
  else
    let value ← stabs.nValue m
    if value < s.addr then
      let l ← stabs.int (trueM + 1)
      return { s with anyMatches := true, regionLeft := m, l := l }
    else if s.addr < value then
      let r ← stabs.int (m - 1)
      return { s with anyMatches := true, regionRight := r, r := r }
    else
      -- an exact match: the loop goes on, to find the right end
      return { s with anyMatches := true, regionLeft := m, l := m, addr := s.addr + 1#32 }

/-- `while (l <= r)`. -/
def searchLoop (type : Word) (fuel : ℕ) (s : Binsearch) : Logged ω ε Binsearch :=
  Logged.whileLoop (fun s => pure (s.l ≤ s.r)) (stabs.round type fuel) stabs.looping fuel s

/-- `stab_binsearch(stabs, &left, &right, type, addr)`: the new bounds. The condition
`l > *region_left` of the last loop is `l >= *region_left + 1`. -/
def stabBinsearch (left right : ℤ) (type addr : Word) (fuel : ℕ) : Logged ω ε (ℤ × ℤ) := do
  let s ← stabs.searchLoop type fuel ⟨left, right, false, left, right, addr⟩
  if s.anyMatches then
    let l ← stabs.scanLoop type (s.regionLeft + 1) fuel s.regionRight
    return (l, s.regionRight)
  else
    let right ← stabs.int (s.regionLeft - 1)
    return (s.regionLeft, right)

end StabReader

/-- The fuel that is enough for a region. Only a round with an exact match may leave the region as
it is, and never two in a row: `StabReader.settles_stabBinsearch`. -/
def searchFuel (left right : ℤ) : ℕ := 2 * (right + 1 - left).toNat + 2

/-! ### An array of stabs -/

/-- Why a search does not return. -/
inductive SearchAbort where
  | overflow
  | looping
deriving DecidableEq, Repr

/-- A search, with the indices of the entries that are read. -/
abbrev Search := Logged ℤ SearchAbort

/-- The entries of an array. -/
def arrayReader (stabs : ℤ → Stab) : StabReader ℤ SearchAbort where
  nType i := ⟨[i], .ok (stabs i).nType⟩
  nValue i := ⟨[i], .ok (stabs i).nValue⟩
  int := cInt .overflow
  looping := .looping

/-- `stab_binsearch(stabs, &left, &right, type, addr)` for an array: the new bounds. -/
def stabSearch (stabs : ℤ → Stab) (left right : ℤ) (type addr : Word) (fuel : ℕ) :
    Search (ℤ × ℤ) := (arrayReader stabs).stabBinsearch left right type addr fuel

end Jos
