import Jos.Kern.StabSearch
import Jos.Kern.Syscall

/-!
# Debug information

`debuginfo_eip` of `kern/kdebug.c` with its `stab_binsearch`, and the `strfind` of
`lib/string.c` it calls.

For an address of the user the tables are memory of the user: the record at
`USTABDATA` says where they are, and `user_mem_check` is asked about them. A run is a
log of the checks that were passed and of what is read afterwards: the record, whole
entries of the stab table, and single bytes of the string table. A read that faults
is in the log, and ends the run.

* The tables of the kernel itself come from the linker and are a parameter.
* `stab_end - stabs` is what the compiler makes of it: the difference of the addresses, shifted by
  two bits and multiplied by the inverse of 3. That is the number of entries when the table
  consists of whole ones, and another number when it does not.
* An operation of the search on `int`s that overflows is undefined, so it ends the run.
-/

namespace Jos

/-- `USTABDATA`. -/
def ustabdata : Word := ptsize / 2#32

/-- `sizeof(struct UserStabData)`. -/
def sizeofUserStabData : ℕ := 16

/-- A `struct UserStabData`. -/
structure UserStabData where
  stabs : Word
  stabEnd : Word
  stabstr : Word
  stabstrEnd : Word
deriving DecidableEq, Repr

namespace UserStabData

/-- `stab_end - stabs`, as it is compiled: an exact division by `sizeof(struct Stab)`. -/
def count (t : UserStabData) : ℤ :=
  (0xAAAAAAAB#32 * (t.stabEnd - t.stabs).sshiftRight 2).toInt

/-- `stabstr_end - stabstr`. -/
def stringSize (t : UserStabData) : Word := t.stabstrEnd - t.stabstr

/-- The address of `stabs[i]`. -/
def entry (t : UserStabData) (i : ℤ) : Word := t.stabs + BitVec.ofInt 32 (sizeofStab * i)

end UserStabData

/-- A `struct Eipdebuginfo`. -/
structure Eipdebuginfo where
  eipFile : CString
  eipLine : Word
  eipFnName : CString
  eipFnNamelen : Word
  eipFnAddr : Word
  eipFnNarg : Word

/-- What `debuginfo_eip` does to the memory of the user. -/
inductive DebugEvent where
  /-- `user_mem_check(curenv, va, len, PTE_U)` returned 0. -/
  | check (va len : Word)
  /-- A read of `size` bytes. -/
  | load (va : Word) (size : ℕ)
deriving DecidableEq, Repr

/-- Why it does not return. -/
inductive DebugAbort where
  | fault (va : Word)
  | overflow
  | looping
  | panic (p : Panic)
deriving DecidableEq, Repr

/-- A piece of the work of `debuginfo_eip`. -/
abbrev Debug := Logged DebugEvent DebugAbort

/-! ### Reading memory -/

/-- Memory as processor `cpu` sees it through the page directory in its `cr3`. -/
def cpuMemory (σ : State) (cpu : ℕ) : Memory := fun a =>
  (x86Walk σ (pgnum (σ.cpus cpu).cr3) (pdx a) (ptx a)).map fun u =>
    byteOf (σ.mem u.2.2 (Fin.ofNat 1024 (pgoff a / 4))) (pgoff a % 4)

/-- The value of `n` bytes, the lowest address first. -/
def readBytes (m : Memory) : ℕ → Word → Option ℕ
  | 0, _ => some 0
  | n + 1, a => (m a).bind fun b => (readBytes m n (a + 1#32)).map fun v => b.toNat + 256 * v

namespace Debug

/-- Read `n` bytes at `a`, or fault. -/
def read (m : Memory) (n : ℕ) (a : Word) : Debug ℕ :=
  match readBytes m n a with
  | some v => pure v
  | none => Logged.stop (.fault a)

/-- Read `n` bytes at `offset` of `stabs[i]`. -/
def field (m : Memory) (t : UserStabData) (offset n : ℕ) (i : ℤ) : Debug ℕ := do
  Logged.tell [.load (t.entry i) sizeofStab]
  read m n (t.entry i + BitVec.ofNat 32 offset)

/-- `stabs[i].n_strx`. -/
def nStrx (m : Memory) (t : UserStabData) (i : ℤ) : Debug Word :=
  BitVec.ofNat 32 <$> field m t 0 4 i

/-- `stabs[i].n_type`. -/
def nType (m : Memory) (t : UserStabData) (i : ℤ) : Debug Byte :=
  BitVec.ofNat 8 <$> field m t 4 1 i

/-- `stabs[i].n_desc`. -/
def nDesc (m : Memory) (t : UserStabData) (i : ℤ) : Debug (BitVec 16) :=
  BitVec.ofNat 16 <$> field m t 6 2 i

/-- `stabs[i].n_value`. -/
def nValue (m : Memory) (t : UserStabData) (i : ℤ) : Debug Word :=
  BitVec.ofNat 32 <$> field m t 8 4 i

/-- A byte of the string table. -/
def stringByte (m : Memory) (a : Word) : Debug Byte := do
  Logged.tell [.load a 1]
  BitVec.ofNat 8 <$> read m 1 a

/-- `s[i]`. A string constant is memory of the kernel. -/
def char (m : Memory) (i : ℕ) : CString → Debug Byte
  | .arg p => stringByte m (p + BitVec.ofNat 32 i)
  | .const s => pure (s.getD i 0#8)

end Debug

/-- `strfind(s, c) - s` from index `i` on. Addresses repeat after `2 ^ 32` characters. -/
def strfindLoop (m : Memory) (s : CString) (c : Byte) : ℕ → ℕ → Debug ℕ
  | 0, _ => Logged.stop .looping
  | fuel + 1, i => do
    let b ← Debug.char m i s
    if b = 0#8 then pure i
    else if b = c then pure i
    else strfindLoop m s c fuel (i + 1)

/-- `strfind(s, c) - s`. -/
def strfind (m : Memory) (s : CString) (c : Byte) : Debug ℕ := strfindLoop m s c (2 ^ 32) 0

/-! ### The search -/

/-- The entries of a table in memory. -/
def tableReader (int : ℤ → Debug ℤ) (m : Memory) (t : UserStabData) :
    StabReader DebugEvent DebugAbort where
  nType := Debug.nType m t
  nValue := Debug.nValue m t
  int := int
  looping := .looping

/-- `stab_binsearch(stabs, &left, &right, type, addr)` for a table in memory: the new bounds.
`int` is what the operations on `int`s do. -/
def searchTable (int : ℤ → Debug ℤ) (m : Memory) (t : UserStabData) (left right : ℤ) (type : Byte)
    (addr : Word) : Debug (ℤ × ℤ) :=
  (tableReader int m t).stabBinsearch left right (type.setWidth 32) addr (searchFuel left right)

/-- The search with integers of any size: where it ends, if no `int` overflows. -/
def stabBinsearch (m : Memory) (t : UserStabData) (left right : ℤ) (type : Byte) (addr : Word) :
    Debug (ℤ × ℤ) := searchTable pure m t left right type addr

/-- The search with `int`s of 32 bits, as `debuginfo_eip` calls it. -/
def Debug.stabBinsearch (m : Memory) (t : UserStabData) (left right : ℤ) (type : Byte)
    (addr : Word) : Debug (ℤ × ℤ) := searchTable (cInt .overflow) m t left right type addr

/-! ### `debuginfo_eip` -/

/-- The loop that looks for the file name, from `lline` down to `lfile`. -/
def findFile (m : Memory) (t : UserStabData) : ℕ → ℤ → Debug ℤ
  | 0, lline => pure lline
  | k + 1, lline => do
    let ty ← Debug.nType m t lline
    if ty = nSol then pure lline
    else if ty ≠ nSo then findFile m t k (lline - 1)
    else
      let v ← Debug.nValue m t lline
      if v = 0#32 then findFile m t k (lline - 1) else pure lline

/-- The loop that counts the arguments, with `rfun - lline` entries left. -/
def countArgs (m : Memory) (t : UserStabData) : ℕ → ℤ → Word → Debug Word
  | 0, _, narg => pure narg
  | k + 1, lline, narg => do
    let ty ← Debug.nType m t lline
    if ty = nPsym then countArgs m t k (lline + 1) (narg + 1#32) else pure narg

/-- `*info` as it is initialised. -/
def unknownInfo (addr : Word) : Eipdebuginfo where
  eipFile := .const (text "<unknown>")
  eipLine := 0#32
  eipFnName := .const (text "<unknown>")
  eipFnNamelen := 9#32
  eipFnAddr := addr
  eipFnNarg := 0#32

/-- The function that `lfun` and `rfun` bracket: `*info`, the address to look for from
now on, and where to look for the line. -/
def findFunction (m : Memory) (t : UserStabData) (lfile rfile lfun rfun : ℤ) (addr : Word)
    (info : Eipdebuginfo) : Debug (Eipdebuginfo × Word × ℤ × ℤ) :=
  if lfun ≤ rfun then do
    let strx ← Debug.nStrx m t lfun
    -- a name outside the string table is not taken
    let name := if strx < t.stringSize then .arg (t.stabstr + strx) else info.eipFnName
    let value ← Debug.nValue m t lfun
    return ({ info with eipFnName := name, eipFnAddr := value }, addr - value, lfun, rfun)
  else return ({ info with eipFnAddr := addr }, addr, lfile, rfile)

/-- What `debuginfo_eip` does once the source file is found, between `lfile` and
`rfile`. -/
def describe (m : Memory) (t : UserStabData) (lfile rfile : ℤ) (addr : Word)
    (info : Eipdebuginfo) : Debug (ℤ × Eipdebuginfo) := do
  let (lfun, rfun) ← Debug.stabBinsearch m t lfile rfile nFun addr
  let (info, addr, lline, rline) ← findFunction m t lfile rfile lfun rfun addr info
  let namelen ← strfind m info.eipFnName (chr ':')
  let info := { info with eipFnNamelen := BitVec.ofNat 32 namelen }
  let (lline, rline) ← Debug.stabBinsearch m t lline rline nSline addr
  -- no line number: `*info` keeps what it has so far
  if rline < lline then return (-1, info)
  -- the line is that of `rline`
  let desc ← Debug.nDesc m t rline
  let info := { info with eipLine := desc.setWidth 32 }
  let lline ← findFile m t (lline + 1 - lfile).toNat lline
  let info ←
    if lfile ≤ lline then do
      let strx ← Debug.nStrx m t lline
      pure (if strx < t.stringSize then { info with eipFile := .arg (t.stabstr + strx) } else info)
    else pure info
  let narg ← if lfun < rfun then countArgs m t (rfun - (lfun + 1)).toNat (lfun + 1) info.eipFnNarg
    else pure info.eipFnNarg
  return (0, { info with eipFnNarg := narg })

/-- What `debuginfo_eip` does with the tables it has chosen. -/
def searchTables (m : Memory) (t : UserStabData) (addr : Word) (info : Eipdebuginfo) :
    Debug (ℤ × Eipdebuginfo) := do
  -- the string table has to be there, and to end with a NUL
  if t.stabstrEnd ≤ t.stabstr then return (-1, info)
  let last ← Debug.stringByte m (t.stabstrEnd - 1#32)
  if last ≠ 0#8 then return (-1, info)
  let (lfile, rfile) ← Debug.stabBinsearch m t 0 (t.count - 1) nSo addr
  -- nothing before the first source file is looked at
  if lfile = 0 then return (-1, info)
  describe m t lfile rfile addr info

/-- `if (user_mem_check(curenv, va, len, PTE_U)) return -1`, and then `k`. -/
def ifValid (B : Boot) (e : Fin nenv) (va len : Word) (info : Eipdebuginfo) (σ : State)
    (k : State → Debug (ℤ × Eipdebuginfo × State)) : Debug (ℤ × Eipdebuginfo × State) :=
  match userMemCheck B e va len pteU σ with
  | .error p => Logged.stop (.panic p)
  | .ok (r, σ) =>
    if r ≠ 0 then return (-1, info, σ)
    else do
      Logged.tell [.check va len]
      k σ

/-- The four words of the record at `USTABDATA`. -/
def userStabData (m : Memory) : Option UserStabData := do
  let stabs ← readBytes m 4 ustabdata
  let stabEnd ← readBytes m 4 (ustabdata + 4#32)
  let stabstr ← readBytes m 4 (ustabdata + 8#32)
  let stabstrEnd ← readBytes m 4 (ustabdata + 12#32)
  return ⟨BitVec.ofNat 32 stabs, BitVec.ofNat 32 stabEnd, BitVec.ofNat 32 stabstr,
    BitVec.ofNat 32 stabstrEnd⟩

/-- Read the record at `USTABDATA`. -/
def readUserStabData (m : Memory) : Debug UserStabData := do
  Logged.tell [.load ustabdata sizeofUserStabData]
  match userStabData m with
  | some t => return t
  | none => Logged.stop (.fault ustabdata)

/-- `debuginfo_eip(addr, info)` for an address below `ULIM`, with `curenv` at `e`. -/
def debuginfoUser (B : Boot) (cpu : ℕ) (e : Fin nenv) (addr : Word) (σ : State) :
    Debug (ℤ × Eipdebuginfo × State) :=
  let info := unknownInfo addr
  ifValid B e ustabdata (BitVec.ofNat 32 sizeofUserStabData) info σ fun σ => do
    let t ← readUserStabData (cpuMemory σ cpu)
    -- what is checked is `stab_end - stabs` bytes, the number of records and not their size
    ifValid B e t.stabs (BitVec.ofInt 32 t.count) info σ fun σ =>
      ifValid B e t.stabstr t.stringSize info σ fun σ => do
        let (r, info) ← searchTables (cpuMemory σ cpu) t addr info
        return (r, info, σ)

/-- `debuginfo_eip(addr, info)` on processor `cpu`: what it returns, and `*info`.
`linked` are the tables of the kernel. -/
def debuginfoEip (B : Boot) (linked : UserStabData) (cpu : ℕ) (addr : Word) (σ : State) :
    Debug (ℤ × Eipdebuginfo × State) :=
  if ulim ≤ addr then do
    let (r, info) ← searchTables (cpuMemory σ cpu) linked addr (unknownInfo addr)
    return (r, info, σ)
  else
    match σ.curenv cpu with
    | none => Logged.stop (.panic ⟨"kernel page fault"⟩)
    | some e => debuginfoUser B cpu e addr σ

end Jos
