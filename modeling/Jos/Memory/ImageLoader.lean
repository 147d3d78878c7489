import Jos.Memory.LoadActions

/-!
# Placing a program whose image does not change

What `load_icode` and `env_create` are for: the image of the program is a function from addresses
to bytes, each of its headers is read once, and each segment gets its pages, its bytes and the
zeros behind them. `Jos.Memory.LoadRefine` says when the code does just this.
-/

namespace Jos

/-- The program header at an address. -/
def proghdrAt (image : Word → Byte) (ph : Word) : Proghdr where
  pType := imageValue image ph 4
  pOffset := imageValue image (ph + 4#32) 4
  pVa := imageValue image (ph + 8#32) 4
  pFilesz := imageValue image (ph + 16#32) 4
  pMemsz := imageValue image (ph + 20#32) 4

/-- The first program header. -/
def elfPhoff (image : Word → Byte) (binary : Word) : Word := imageValue image (binary + 28#32) 4

/-- How many there are. -/
def elfPhnum (image : Word → Byte) (binary : Word) : ℕ :=
  (imageValue image (binary + 44#32) 2).toNat

/-- Program header `i`. -/
def elfHeader (image : Word → Byte) (binary : Word) (i : ℕ) : Proghdr :=
  proghdrAt image (binary + elfPhoff image binary + BitVec.ofNat 32 (32 * i))

/-- The program headers that `load_icode` goes through. -/
def proghdrs (image : Word → Byte) (binary : Word) : List Proghdr :=
  let n := headerCount (binary + elfPhoff image binary) (elfPhnum image binary)
  (List.range n).map (elfHeader image binary)

/-- The loadable segments end below `UTOP` and have no more bytes in the file than in memory. -/
def Loadable (image : Word → Byte) (binary : Word) : Prop :=
  ∀ ph ∈ proghdrs image binary, ph.pType = elfProgLoad →
    ph.pVa.toNat + ph.pMemsz.toNat ≤ utop.toNat ∧ ph.pFilesz ≤ ph.pMemsz

section

variable (B : Boot) (cpu : ℕ) (e : Fin nenv) (image : Word → Byte) (binary : Word)

/-- One segment. -/
def placeSegment (σ : State) (ph : Proghdr) : Except Panic State :=
  if ph.pType = elfProgLoad then do
    let σ ← regionAlloc B cpu e ph.pVa ph.pMemsz σ
    let σ ← storeBytes cpu (imageBytes image (binary + ph.pOffset) ph.pFilesz.toNat) ph.pVa σ
    storeBytes cpu (List.replicate (ph.pMemsz - ph.pFilesz).toNat 0#8) (ph.pVa + ph.pFilesz) σ
  else .ok σ

/-- The segments, the entry point and the stack. -/
def placeImage (σ : State) : Except Panic State := do
  let pa ← paddr (σ.envs e).envPgdir
  let σ := lcr3 cpu pa σ
  let σ ← (proghdrs image binary).foldlM (placeSegment B cpu e image binary) σ
  let σ := setEntry e (imageValue image (binary + 24#32) 4) σ
  let pa ← paddr B.kernPgdir
  let σ := lcr3 cpu pa σ
  regionAlloc B cpu e (ustacktop - pgsize) pgsize σ

end

/-- The same in a new environment. -/
def placeEnv (B : Boot) (cpu : ℕ) (uninit : Option (Fin nenv)) (image : Word → Byte)
    (binary : Word) (type : EnvType) (σ : State) : Except Panic State := do
  let (_, stored, σ) ← envAlloc B 0#32 σ
  match stored.or uninit with
  | none => .error ⟨"kernel page fault"⟩
  | some e =>
    let σ := σ.setEnv e { σ.envs e with envType := type }
    placeImage B cpu e image binary σ

end Jos
