import Jos.Console.SearchBounds
import Jos.Kern.Kdebug
import Jos.Memory.UserCheck
import Mathlib.Tactic.Linarith

/-!
# What `debuginfo_eip` reads

For an address of the user, everything `debuginfo_eip` reads should lie in a range that
`user_mem_check` has accepted before (`Validated`).

The check of the stab table is asked about `stab_end - stabs` bytes, which is the number
of its entries and not their size. So the first entry the search looks at, the one in the
middle, is not inside the range that was checked (`probe_covered_iff`); the one exception
are tables that do not consist of whole entries and whose number comes out so large that
the addresses go around. The reads are in checked memory as long as the search is not begun
at all: because a check fails, the string table is refused, or there is no entry. When the
middle entry does not happen to lie inside the record or the string table, whose checks are
right, that is also the only case: `debuginfoEip_validated_iff`.

The search itself ends whatever the user has put into the table (`stabBinsearch_ends`).
-/

namespace Jos

open Logged

variable {mem : Memory} {t : UserStabData} {type : Byte}

/-! ### Reading entries -/

theorem nType_log (i : ℤ) : (Debug.nType mem t i).log = [.load (t.entry i) sizeofStab] := by
  rw [Debug.nType, Debug.field, Debug.read]
  cases readBytes mem 1 (t.entry i + BitVec.ofNat 32 4) <;> rfl

theorem nValue_log (i : ℤ) : (Debug.nValue mem t i).log = [.load (t.entry i) sizeofStab] := by
  rw [Debug.nValue, Debug.field, Debug.read]
  cases readBytes mem 4 (t.entry i + BitVec.ofNat 32 8) <;> rfl

/-! ### The search ends -/

/-- A piece of work that is not cut off. -/
def Ends {α : Type} (x : Debug α) : Prop := x.result ≠ .error .looping

theorem ends_nType (i : ℤ) : Ends (Debug.nType mem t i) := by
  rw [Debug.nType, Debug.field, Debug.read]
  cases readBytes mem 1 (t.entry i + BitVec.ofNat 32 4)
  all_goals exact fun h => by cases h

theorem ends_nValue (i : ℤ) : Ends (Debug.nValue mem t i) := by
  rw [Debug.nValue, Debug.field, Debug.read]
  cases readBytes mem 4 (t.entry i + BitVec.ofNat 32 8)
  all_goals exact fun h => by cases h

/-- The type and the address of an entry, where they can be read. -/
def readableStab (mem : Memory) (t : UserStabData) (i : ℤ) : Stab where
  nStrx := 0#32
  nType := (Debug.nType mem t i).result.toOption.getD 0#8
  nDesc := 0#16
  nValue := (Debug.nValue mem t i).result.toOption.getD 0#32

/-- What is read is what is there, or the read faults. -/
theorem endsIn_of_ends {α : Type} {x : Debug α} {a : α} (h : Ends x) :
    EndsIn (· ≠ .looping) (fun b => b = x.result.toOption.getD a) x.result := by
  cases hx : x.result with
  | ok b => exact endsIn_ok.mpr rfl
  | error e => exact endsIn_error.mpr fun he => h (he ▸ hx)

/-- Every table can be searched, as long as nothing faults. -/
theorem tableReader_reads_readable (mem : Memory) (t : UserStabData) (L R : ℤ) :
    (tableReader (cInt .overflow) mem t).Reads (fun i => .load (t.entry i) sizeofStab)
      (readableStab mem t) (· ≠ .looping) L R where
  type {i} _ _ := ⟨nType_log i, endsIn_of_ends (ends_nType i)⟩
  value {i} _ _ := ⟨nValue_log i, endsIn_of_ends (ends_nValue i)⟩
  int _ := StabReader.endsIn_cInt (.inr fun h => by cases h)

/-- `stab_binsearch` returns or faults, for every table and all bounds. -/
theorem stabBinsearch_ends (left right : ℤ) (addr : Word) :
    Ends (Debug.stabBinsearch mem t left right type addr) := by
  obtain ⟨log, result, hrun, -, -, herror⟩ :=
    StabReader.settles_stabBinsearch (I := fun _ => True)
      (tableReader_reads_readable mem t left right) (type.setWidth 32) addr
      (fun _ _ _ _ _ => trivial) trivial
  rw [Ends, Debug.stabBinsearch, searchTable, hrun _ le_rfl]
  exact fun h => herror _ h rfl

/-! ### What the search reads first -/

/-- A scan looks at its first entry. -/
theorem scanLoop_log (int : ℤ → Debug ℤ) (mem : Memory) (t : UserStabData) (type : Word)
    {low m : ℤ} (h : low ≤ m) (fuel : ℕ) :
    ∃ l, ((tableReader int mem t).scanLoop type low (fuel + 1) m).log =
      .load (t.entry m) sizeofStab :: l := by
  have htype : (tableReader int mem t).otherType type low m =
      Debug.nType mem t m >>= fun ty => pure (decide (ty.setWidth 32 ≠ type)) := by
    rw [StabReader.otherType, if_pos h]
    rfl
  rw [StabReader.scanLoop, Logged.whileLoop, htype, bind_pure_bind]
  obtain ⟨l, hl⟩ := log_bind (Debug.nType mem t m) _
  exact ⟨l, hl.trans (by rw [nType_log]; rfl)⟩

/-- So does a round, with the entry in the middle. -/
theorem round_log (mem : Memory) (t : UserStabData) (type : Word) {s : Binsearch}
    (h : s.l ≤ (s.l + s.r).tdiv 2) (hint : IsInt (s.l + s.r)) (fuel : ℕ) :
    ∃ l, ((tableReader (cInt .overflow) mem t).round type (fuel + 1) s).log =
      .load (t.entry ((s.l + s.r).tdiv 2)) sizeofStab :: l := by
  obtain ⟨l, hl⟩ := scanLoop_log (cInt .overflow) mem t type h fuel
  have hsum : (tableReader (cInt .overflow) mem t).int (s.l + s.r) = pure (s.l + s.r) :=
    if_pos hint
  rw [StabReader.round, hsum, Logged.pure_bind]
  obtain ⟨l', hl'⟩ := log_bind ((tableReader (cInt .overflow) mem t).scanLoop type s.l (fuel + 1)
    ((s.l + s.r).tdiv 2)) _
  exact ⟨l ++ l', hl'.trans (by rw [hl]; rfl)⟩

/-- A search for an address begins with the entry in the middle. -/
theorem stabBinsearch_log (mem : Memory) (t : UserStabData) (type : Byte) {n : ℤ} (addr : Word)
    (h : 0 < n) (hn : IsInt n) :
    ∃ l, (Debug.stabBinsearch mem t 0 (n - 1) type addr).log =
      .load (t.entry ((n - 1).tdiv 2)) sizeofStab :: l := by
  have hmid : (0 : ℤ) ≤ (0 + (n - 1)).tdiv 2 := Int.tdiv_nonneg (by omega) (by decide)
  obtain ⟨l, hl⟩ := round_log mem t (type.setWidth 32)
    (s := ⟨0, n - 1, false, 0, n - 1, addr⟩) hmid (by rw [IsInt] at hn ⊢; dsimp only; omega)
    (2 * (n - 1 + 1 - 0).toNat + 1)
  have hgo : (decide ((0 : ℤ) ≤ n - 1)) = true := decide_eq_true (by omega)
  rw [Debug.stabBinsearch, searchTable, StabReader.stabBinsearch, StabReader.searchLoop,
    searchFuel, Logged.whileLoop, Logged.pure_bind, hgo, if_pos rfl]
  obtain ⟨l₁, hl₁⟩ := log_bind ((tableReader (cInt .overflow) mem t).round (type.setWidth 32)
    (2 * (n - 1 + 1 - 0).toNat + 1 + 1) ⟨0, n - 1, false, 0, n - 1, addr⟩) _
  obtain ⟨l₂, hl₂⟩ := log_bind ((tableReader (cInt .overflow) mem t).round (type.setWidth 32)
    (2 * (n - 1 + 1 - 0).toNat + 1 + 1) ⟨0, n - 1, false, 0, n - 1, addr⟩ >>= _) _
  refine ⟨l ++ l₁ ++ l₂, ?_⟩
  rw [hl₂, hl₁, hl, Int.zero_add]
  rfl

/-- A search for nothing reads nothing. -/
theorem stabBinsearch_none {n : ℤ} (addr : Word) (h : n ≤ 0) :
    Debug.stabBinsearch mem t 0 (n - 1) type addr = pure (0, -1) := by
  have hgo : (decide ((0 : ℤ) ≤ n - 1)) = false := decide_eq_false (by omega)
  rw [Debug.stabBinsearch, searchTable, StabReader.stabBinsearch, StabReader.searchLoop,
    searchFuel, Logged.whileLoop, Logged.pure_bind, hgo, if_neg Bool.false_ne_true]
  rfl

theorem toInt_isInt (x : Word) : IsInt x.toInt := ⟨BitVec.le_toInt x, BitVec.toInt_lt⟩

theorem UserStabData.count_isInt (t : UserStabData) : IsInt t.count := toInt_isInt _

/-! ### Validated logs -/

/-- Each of the `n` bytes at `a` is one of the `len` bytes at `va`. -/
def Covered (a : Word) (n : ℕ) (va len : Word) : Prop :=
  ∀ k < n, (a + BitVec.ofNat 32 k - va).toNat < len.toNat

instance (a : Word) (n : ℕ) (va len : Word) : Decidable (Covered a n va len) :=
  inferInstanceAs (Decidable (∀ k < n, (a + BitVec.ofNat 32 k - va).toNat < len.toNat))

/-- Every read of a log is inside a range checked before it; `done` are the ranges that
were checked before the log begins. -/
def Validated (done : List (Word × Word)) : List DebugEvent → Prop
  | [] => True
  | .check va len :: l => Validated ((va, len) :: done) l
  | .load a n :: l => (∃ c ∈ done, Covered a n c.1 c.2) ∧ Validated done l

theorem covered_self (a : Word) (len : Word) : Covered a len.toNat a len := by
  intro k hk
  have hlt := len.isLt
  rw [BitVec.add_comm, BitVec.add_sub_cancel, BitVec.toNat_ofNat]
  omega

theorem covered_last (h : t.stabstr < t.stabstrEnd) :
    Covered (t.stabstrEnd - 1#32) 1 t.stabstr t.stringSize := by
  intro k hk
  obtain rfl : k = 0 := by omega
  have hlt := t.stabstrEnd.isLt
  rw [BitVec.lt_def] at h
  rw [UserStabData.stringSize, BitVec.add_zero]
  simp only [BitVec.toNat_sub, BitVec.toNat_ofNat]
  omega

/-! ### The tables -/

theorem stringByte_some {a : Word} {b : Byte} (h : mem a = some b) :
    Debug.stringByte mem a = ⟨[.load a 1], .ok b⟩ := by
  have hread : readBytes mem 1 a = some b.toNat := by
    rw [readBytes, readBytes, h]
    rfl
  have hb : BitVec.ofNat 8 b.toNat = b := by
    rw [BitVec.ofNat_toNat, BitVec.setWidth_eq]
  rw [Debug.stringByte, Debug.read, hread]
  exact congrArg (fun b => (⟨[.load a 1], .ok b⟩ : Debug Byte)) hb

theorem stringByte_none {a : Word} (h : mem a = none) :
    Debug.stringByte mem a = ⟨[.load a 1], .error (.fault a)⟩ := by
  have hread : readBytes mem 1 a = none := by
    rw [readBytes, h]
    rfl
  rw [Debug.stringByte, Debug.read, hread]
  rfl

namespace UserStabData

/-- The entry in the middle, which the search looks at first. -/
def probe (t : UserStabData) : Word := t.entry ((t.count - 1).tdiv 2)

/-- The tables pass the checks of their contents, and there is an entry to look at. -/
structure Searched (t : UserStabData) (m : Memory) : Prop where
  nonempty : t.stabstr < t.stabstrEnd
  terminated : m (t.stabstrEnd - 1#32) = some 0#8
  entries : 0 < t.count

end UserStabData

/-- Tables that are not refused: the search begins. -/
theorem searchTables_of_searched (h : t.Searched mem) (addr : Word) (info : Eipdebuginfo) :
    ∃ l, (searchTables mem t addr info).log =
      .load (t.stabstrEnd - 1#32) 1 :: .load t.probe sizeofStab :: l := by
  obtain ⟨l, hl⟩ := stabBinsearch_log mem t nSo addr h.entries t.count_isInt
  rw [searchTables, if_neg (BitVec.not_le.mpr h.nonempty), stringByte_some h.terminated,
    bind_of_ok rfl, if_neg (not_not.mpr rfl)]
  obtain ⟨l', hl'⟩ := log_bind (Debug.stabBinsearch mem t 0 (t.count - 1) nSo addr) _
  exact ⟨l ++ l', congrArg (_ :: ·) (hl'.trans (by rw [hl]; rfl))⟩

/-- Tables that are refused: at most the last byte of the strings is read. -/
theorem searchTables_of_not_searched (h : ¬t.Searched mem) (addr : Word) (info : Eipdebuginfo) :
    (searchTables mem t addr info).log = [] ∨
      t.stabstr < t.stabstrEnd ∧
        (searchTables mem t addr info).log = [.load (t.stabstrEnd - 1#32) 1] := by
  by_cases hne : t.stabstrEnd ≤ t.stabstr
  · left
    rw [searchTables, if_pos hne]
    rfl
  right
  refine ⟨BitVec.not_le.mp hne, ?_⟩
  rw [searchTables, if_neg hne]
  cases hlast : mem (t.stabstrEnd - 1#32) with
  | none => rw [stringByte_none hlast, bind_of_error rfl]
  | some b =>
    rw [stringByte_some hlast, bind_of_ok rfl]
    by_cases hb : b ≠ 0#8
    · rw [if_pos hb]
      rfl
    · -- only the entries can be missing
      have hcount : t.count ≤ 0 := by
        by_contra hpos
        exact h ⟨BitVec.not_le.mp hne, (not_not.mp hb) ▸ hlast, by omega⟩
      rw [if_neg hb, stabBinsearch_none addr hcount, Logged.pure_bind]
      rfl

/-! ### `debuginfo_eip` -/

theorem ifValid_ok {B : Boot} {e : Fin nenv} {va len : Word} {σ : State}
    (h : userMemCheck B e va len pteU σ = .ok (0, σ)) (info : Eipdebuginfo)
    (k : State → Debug (ℤ × Eipdebuginfo × State)) :
    (ifValid B e va len info σ k).log = .check va len :: (k σ).log := by
  rw [ifValid, h]
  rfl

/-- A check that fails ends the work; after one that is passed the work goes on. -/
theorem ifValid_log (B : Boot) (e : Fin nenv) (va len : Word) (info : Eipdebuginfo) (σ : State)
    (k : State → Debug (ℤ × Eipdebuginfo × State)) :
    (ifValid B e va len info σ k).log = [] ∧ userMemCheck B e va len pteU σ ≠ .ok (0, σ) ∨
      (ifValid B e va len info σ k).log = .check va len :: (k σ).log ∧
        userMemCheck B e va len pteU σ = .ok (0, σ) := by
  rw [ifValid]
  cases hcheck : userMemCheck B e va len pteU σ with
  | error p =>
    left
    exact ⟨rfl, fun h => by cases h⟩
  | ok u =>
    obtain ⟨r, σ₁⟩ := u
    by_cases hr : r ≠ 0
    · left
      refine ⟨?_, fun h => hr (by cases h; rfl)⟩
      simp only [if_pos hr]
      rfl
    · right
      obtain rfl := not_not.mp hr
      -- a check that succeeds leaves the state as it is
      obtain rfl := (userMemCheck_nonneg hcheck le_rfl).2
      exact ⟨rfl, rfl⟩

/-- What the user has to set up for the search to begin: every check is passed, and the
tables are not refused. -/
structure SearchBegins (B : Boot) (cpu : ℕ) (e : Fin nenv) (t : UserStabData) (σ : State) :
    Prop where
  record : userMemCheck B e ustabdata (BitVec.ofNat 32 sizeofUserStabData) pteU σ = .ok (0, σ)
  read : userStabData (cpuMemory σ cpu) = some t
  stabs : userMemCheck B e t.stabs (BitVec.ofInt 32 t.count) pteU σ = .ok (0, σ)
  strings : userMemCheck B e t.stabstr t.stringSize pteU σ = .ok (0, σ)
  searched : t.Searched (cpuMemory σ cpu)

section User

variable {B : Boot} {cpu : ℕ} {e : Fin nenv} {addr : Word} {σ : State}

/-- What `debuginfo_eip` reads when the search does not begin was checked. -/
theorem debuginfoUser_validated (h : ∀ t, ¬SearchBegins B cpu e t σ) :
    Validated [] (debuginfoUser B cpu e addr σ).log := by
  have hrec : Covered ustabdata sizeofUserStabData ustabdata (BitVec.ofNat 32 sizeofUserStabData) :=
    covered_self ustabdata (BitVec.ofNat 32 sizeofUserStabData)
  rw [debuginfoUser]
  obtain ⟨hlog, -⟩ | ⟨hlog, hrecord⟩ := ifValid_log B e ustabdata
    (BitVec.ofNat 32 sizeofUserStabData) (unknownInfo addr) σ _
  · rw [hlog]
    trivial
  rw [hlog, readUserStabData]
  cases hread : userStabData (cpuMemory σ cpu) with
  | none => exact ⟨⟨_, List.mem_singleton_self _, hrec⟩, trivial⟩
  | some t =>
    refine ⟨⟨_, List.mem_singleton_self _, hrec⟩, ?_⟩
    obtain ⟨hlog, -⟩ | ⟨hlog, hstabs⟩ := ifValid_log B e t.stabs
      (BitVec.ofInt 32 t.count) (unknownInfo addr) σ _
    · rw [hlog]
      trivial
    rw [hlog]
    obtain ⟨hlog, -⟩ | ⟨hlog, hstrings⟩ := ifValid_log B e t.stabstr t.stringSize
      (unknownInfo addr) σ _
    · rw [hlog]
      trivial
    -- every check is passed, so it is the tables that are refused
    rw [hlog, log_bind_pure]
    obtain hlog | ⟨hne, hlog⟩ := searchTables_of_not_searched
      (fun hs => h t ⟨hrecord, hread, hstabs, hstrings, hs⟩) addr (unknownInfo addr)
    · rw [hlog]
      trivial
    · rw [hlog]
      exact ⟨⟨_, List.mem_cons_self, covered_last hne⟩, trivial⟩

/-- When it does, the middle entry is read after the three checks. -/
theorem SearchBegins.log {t : UserStabData} (h : SearchBegins B cpu e t σ) (addr : Word) :
    ∃ l, (debuginfoUser B cpu e addr σ).log =
      [.check ustabdata (BitVec.ofNat 32 sizeofUserStabData),
        .load ustabdata sizeofUserStabData,
        .check t.stabs (BitVec.ofInt 32 t.count), .check t.stabstr t.stringSize,
        .load (t.stabstrEnd - 1#32) 1, .load t.probe sizeofStab] ++ l := by
  obtain ⟨l, hl⟩ := searchTables_of_searched h.searched addr (unknownInfo addr)
  refine ⟨l, ?_⟩
  rw [debuginfoUser, ifValid_ok h.record, readUserStabData, h.read]
  change _ :: _ :: (ifValid B e t.stabs _ _ σ _).log = _
  rw [ifValid_ok h.stabs, ifValid_ok h.strings, log_bind_pure, hl]
  rfl

/-- Between the entries that are counted and the addresses: 3 is inverted modulo `2 ^ 32`. -/
theorem UserStabData.three_mul_count (t : UserStabData) :
    ∃ q, 3 * t.count = (t.stabEnd - t.stabs).toInt / 4 + 2 ^ 32 * q := by
  have hinv : (0xAAAAAAAB#32 : Word).toInt = -1431655765 := by decide
  have hshift : ((t.stabEnd - t.stabs).sshiftRight 2).toInt = (t.stabEnd - t.stabs).toInt / 4 := by
    rw [BitVec.toInt_sshiftRight, Int.shiftRight_eq_div_pow]
    rfl
  rw [UserStabData.count, BitVec.toInt_mul, hinv, hshift]
  generalize (t.stabEnd - t.stabs).toInt / 4 = k
  have hbmod := Int.bmod_emod (x := -1431655765 * k) (m := 2 ^ 32)
  generalize (-1431655765 * k).bmod (2 ^ 32) = c at hbmod ⊢
  exact ⟨(3 * c - k) / 2 ^ 32, by omega⟩

theorem twelve_mul_div_four (k : ℤ) : 12 * k / 4 = 3 * k := by omega

/-- 3 has one inverse among the `int`s that are small enough. -/
theorem eq_of_three_mul {c k q : ℤ} (hq : 3 * c = 12 * k / 4 + 2 ^ 32 * q) (hc : IsInt c)
    (hk : IsInt (12 * k)) : c = k := by
  rw [twelve_mul_div_four] at hq
  rw [IsInt] at hc hk
  -- 3 divides the quotient, so they differ by a multiple of the whole address space
  obtain ⟨j, rfl⟩ : ∃ j, q = 3 * j := ⟨c - k - 1431655765 * q, by linarith⟩
  have hdiff : c - k = 2 ^ 32 * j := by linarith
  obtain hneg | rfl | hpos : j ≤ -1 ∨ j = 0 ∨ 1 ≤ j := by omega
  all_goals omega

theorem three_mul_cases {c d q : ℤ} (hq : 3 * c = d / 4 + 2 ^ 32 * q) (hc : IsInt c)
    (hd : IsInt d) : c ≤ 178956970 ∨ 1252698795 ≤ c ∧ c ≤ 1610612735 := by
  rw [IsInt] at hc hd
  obtain hneg | rfl | hpos : q ≤ 0 ∨ q = 1 ∨ 2 ≤ q := by omega
  all_goals omega

/-- A table of whole entries: their number is what the code counts. -/
theorem UserStabData.count_of_whole {t : UserStabData} {k : ℤ}
    (h : (t.stabEnd - t.stabs).toInt = 12 * k) : t.count = k := by
  obtain ⟨q, hq⟩ := t.three_mul_count
  rw [h] at hq
  exact eq_of_three_mul hq t.count_isInt (h ▸ toInt_isInt _)

/-- What is counted is a number of entries that can be there, or more than there can be. -/
theorem UserStabData.count_cases (t : UserStabData) :
    t.count ≤ 178956970 ∨ 1252698795 ≤ t.count ∧ t.count ≤ 1610612735 := by
  obtain ⟨q, hq⟩ := t.three_mul_count
  exact three_mul_cases hq t.count_isInt (toInt_isInt _)

/-- Where the bytes of the middle entry are. -/
theorem probe_offset {t : UserStabData} {n : ℕ} (hn : t.count = n) (h : 0 < n) (k : ℕ) :
    (t.probe + BitVec.ofNat 32 k - t.stabs).toNat = (12 * ((n - 1) / 2) + k) % 2 ^ 32 := by
  have hmid : (12 : ℤ) * (((n : ℤ) - 1).tdiv 2) = ((12 * ((n - 1) / 2) : ℕ) : ℤ) := by
    rw [Int.tdiv_eq_ediv_of_nonneg (by omega)]
    omega
  have hprobe : t.probe = t.stabs + BitVec.ofNat 32 (12 * ((n - 1) / 2)) := by
    rw [UserStabData.probe, UserStabData.entry, hn]
    exact congrArg (fun i => t.stabs + BitVec.ofInt 32 i) hmid
  have hcancel : ∀ x y : Word, t.stabs + x + y - t.stabs = x + y := by
    intro x y
    rw [BitVec.add_assoc, BitVec.add_comm, BitVec.add_sub_cancel]
  calc (t.probe + BitVec.ofNat 32 k - t.stabs).toNat
      = (BitVec.ofNat 32 (12 * ((n - 1) / 2)) + BitVec.ofNat 32 k).toNat := by
        rw [hprobe, hcancel]
    _ = (BitVec.ofNat 32 (12 * ((n - 1) / 2) + k)).toNat := by rw [BitVec.ofNat_add]
    _ = (12 * ((n - 1) / 2) + k) % 2 ^ 32 := BitVec.toNat_ofNat _ _

/-- The middle entry is not in the range the check of the stab table is asked about: it ends
behind that, or begins before it. Only where more entries are counted than there can be, by a
multiple of the whole address space, the address of the middle one may come out inside. -/
theorem probe_covered_iff {t : UserStabData} (h : 0 < t.count) :
    Covered t.probe sizeofStab t.stabs (BitVec.ofInt 32 t.count) ↔ 1431655766 < t.count := by
  obtain ⟨n, hn⟩ : ∃ n : ℕ, t.count = n := Int.eq_ofNat_of_zero_le h.le
  have hlen : (BitVec.ofInt 32 t.count).toNat = n := by
    have hcount := t.count_isInt.2
    rw [hn, BitVec.ofInt_natCast, BitVec.toNat_ofNat, Nat.mod_eq_of_lt (by omega)]
  have hcases := t.count_cases
  have hoffset := fun k => probe_offset hn (by omega) k
  rw [Covered, hlen]
  rw [hn] at hcases h ⊢
  constructor
  · intro hcov
    -- the first byte and the last
    have hfirst := hcov 0 (by decide)
    have hlast := hcov 11 (by decide)
    rw [hoffset] at hfirst hlast
    obtain hsmall | ⟨hlow, -⟩ := hcases
    · rw [Nat.mod_eq_of_lt (by omega)] at hlast
      omega
    · obtain hq | hq : (12 * ((n - 1) / 2) + 0) / 2 ^ 32 ≤ 1 ∨
          2 ≤ (12 * ((n - 1) / 2) + 0) / 2 ^ 32 := by omega
      · obtain hq' | hq' : (12 * ((n - 1) / 2) + 11) / 2 ^ 32 ≤ 1 ∨
            2 ≤ (12 * ((n - 1) / 2) + 11) / 2 ^ 32 := by omega
        · omega
        · omega
      · omega
  · intro hbig k hk
    rw [sizeofStab] at hk
    have hq : (12 * ((n - 1) / 2) + k) / 2 ^ 32 = 2 := by omega
    rw [hoffset]
    omega

namespace UserStabData

/-- The middle entry lies in no range that is checked: neither inside the record nor inside the
string table, and the entries that are counted do not go around the address space. -/
def Apart (t : UserStabData) : Prop :=
  ¬Covered t.probe sizeofStab ustabdata (BitVec.ofNat 32 sizeofUserStabData) ∧
    ¬Covered t.probe sizeofStab t.stabstr t.stringSize ∧ t.count ≤ 1431655766

instance (t : UserStabData) : Decidable t.Apart := inferInstanceAs (Decidable (_ ∧ _ ∧ _))

end UserStabData

theorem SearchBegins.not_validated {t : UserStabData} (h : SearchBegins B cpu e t σ)
    (hapart : t.Apart) (addr : Word) : ¬Validated [] (debuginfoUser B cpu e addr σ).log := by
  obtain ⟨l, hl⟩ := h.log addr
  rw [hl]
  rintro ⟨-, -, ⟨c, hc, hcov⟩, -⟩
  simp only [List.mem_cons, List.not_mem_nil, or_false] at hc
  obtain rfl | rfl | rfl := hc
  · exact hapart.2.1 hcov
  · exact absurd ((probe_covered_iff h.searched.entries).mp hcov) (not_lt.mpr hapart.2.2)
  · exact hapart.1 hcov

/-- The search of the stab table does not begin. -/
def SearchIdle (B : Boot) (cpu : ℕ) (σ : State) : Prop :=
  ∀ e t, σ.curenv cpu = some e → ¬SearchBegins B cpu e t σ

theorem debuginfoEip_user (linked : UserStabData) (haddr : addr < ulim)
    (he : σ.curenv cpu = some e) :
    debuginfoEip B linked cpu addr σ = debuginfoUser B cpu e addr σ := by
  rw [debuginfoEip, if_neg (BitVec.not_le.mpr haddr), he]

/-- Everything `debuginfo_eip` reads for an address of the user was checked, if the search
does not begin; and only then, unless the entry in the middle lies in a range that is checked. -/
theorem debuginfoEip_validated_iff (B : Boot) (linked : UserStabData) (cpu : ℕ) (addr : Word)
    (σ : State) (haddr : addr < ulim) :
    (SearchIdle B cpu σ → Validated [] (debuginfoEip B linked cpu addr σ).log) ∧
    ((∀ t, userStabData (cpuMemory σ cpu) = some t → t.Apart) →
      (Validated [] (debuginfoEip B linked cpu addr σ).log ↔ SearchIdle B cpu σ)) := by
  have hidle : SearchIdle B cpu σ → Validated [] (debuginfoEip B linked cpu addr σ).log := by
    intro h
    cases he : σ.curenv cpu with
    | none =>
      rw [debuginfoEip, if_neg (BitVec.not_le.mpr haddr), he]
      trivial
    | some e =>
      rw [debuginfoEip_user linked haddr he]
      exact debuginfoUser_validated fun t => h e t he
  refine ⟨hidle, fun hapart => ⟨?_, hidle⟩⟩
  intro hval e t he hbegins
  rw [debuginfoEip_user linked haddr he] at hval
  exact hbegins.not_validated (hapart t hbegins.read) addr hval

end User

/-- Environment 0 runs with one page of its own, at `USTABDATA`, whose first words are the
record `t`. -/
def debugState (t : UserStabData) : State :=
  { smallMemory with
    mem := fun f i =>
      if f = 512 then if i = 0 then 0x201007#32 else 0#32
      else if f = 513 then if i = 512 then 0x202007#32 else 0#32
      else if f = 514 then [t.stabs, t.stabEnd, t.stabstr, t.stabstrEnd].getD i 0#32
      else 0#32
    envs := fun e => if e = 0 then { envStatus := .running, envPgdir := 0xF0200000#32 } else {}
    cpus := fun _ => { cpuEnv := some 0, cr3 := 0x200000#32 } }

/-- A table of one entry that begins 4 bytes before the end of the page. -/
def shortStabs : UserStabData := ⟨0x200FFC#32, 0x201008#32, 0x200100#32, 0x200101#32⟩

/-- The check accepts the first byte of the entry, and the kernel faults on its type, in
the page behind. -/
theorem debuginfoEip_unchecked :
    (debuginfoEip smallMachine shortStabs 0 0x800020#32 (debugState shortStabs)).result =
        .error (.fault 0x201000#32) ∧
      ¬Validated []
        (debuginfoEip smallMachine shortStabs 0 0x800020#32 (debugState shortStabs)).log := by
  have hbegins : SearchBegins smallMachine 0 0 shortStabs (debugState shortStabs) := by
    refine ⟨?_, ?_, ?_, ?_, ?_, ?_, ?_⟩
    · rfl
    · rfl
    · rfl
    · rfl
    · decide
    · rfl
    · decide
  refine ⟨rfl, ?_⟩
  rw [debuginfoEip_user shortStabs (by decide) rfl]
  exact hbegins.not_validated (by decide) _

/-- A table without entries. -/
def emptyStabs : UserStabData := ⟨0x200FFC#32, 0x200FFC#32, 0x200100#32, 0x200101#32⟩

theorem debuginfoEip_validated_empty :
    0x800020#32 < ulim ∧ Validated []
      (debuginfoEip smallMachine emptyStabs 0 0x800020#32 (debugState emptyStabs)).log := by
  have hread : userStabData (cpuMemory (debugState emptyStabs) 0) = some emptyStabs := rfl
  have hidle : SearchIdle smallMachine 0 (debugState emptyStabs) := by
    intro e t _ hbegins
    obtain rfl := Option.some.inj (hread.symm.trans hbegins.read)
    exact absurd hbegins.searched.entries (by decide)
  exact ⟨by decide,
    (debuginfoEip_validated_iff smallMachine emptyStabs 0 0x800020#32 (debugState emptyStabs)
      (by decide)).1 hidle⟩

end Jos
