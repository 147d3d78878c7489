import Jos.Kern.Mpconfig
import Jos.Memory.MemRun

/-!
# The processors an MP table lists

`mpEntries` reads the table as a list of entries, up to the first one of unknown type, and
`Walked` says what the loop of `mp_init` makes of such a list (`mpWalk_spec`). Two things go
wrong for tables that no firmware we know of has:

* A boot flag on a processor entry that comes after `NCPU` others makes `bootcpu` point past
  `cpus`, and the fallback for an unknown entry leaves `bootcpu` where it was:
  `cpuTable_valid_iff` has the exact tables for which the processor table is right.
* The loop counts entries and never looks at `conf->length`: `mpWalk_inside_iff` has the exact
  tables for which it stays inside.
-/

namespace Jos

variable {B : Boot} {m : Word → Byte} {s s' : MpState} {cpus : ℕ → MpCpu}

/-! ### Entries -/

/-- A processor entry. -/
structure MpProc where
  apicid : Byte
  flags : Byte
deriving DecidableEq, Repr

/-- The entry has the flag `MPPROC_BOOT`. -/
def MpProc.IsBoot (p : MpProc) : Prop := p.flags &&& mpprocBoot ≠ 0#8

instance (p : MpProc) : Decidable p.IsBoot := inferInstanceAs (Decidable (_ ≠ _))

/-- A table entry. -/
inductive MpEntry where
  | proc (p : MpProc)
  /-- A bus, an I/O APIC or an interrupt source. -/
  | device
  /-- An entry of any other type. -/
  | unknown
deriving DecidableEq, Repr

/-- How far it is to the next entry. -/
def MpEntry.size : MpEntry → ℕ
  | .proc _ => sizeofMpproc
  | .device => 8
  | .unknown => 0

/-- The first `n` entries at `p`, up to an unknown one. -/
def mpEntries (m : Word → Byte) : ℕ → Word → List MpEntry
  | 0, _ => []
  | n + 1, p =>
    if m p = mpproc then
      .proc ⟨m (p + 1#32), m (p + 3#32)⟩ :: mpEntries m n (p + BitVec.ofNat 32 sizeofMpproc)
    else if m p = mpbus ∨ m p = mpioapic ∨ m p = mpiointr ∨ m p = mplintr then
      .device :: mpEntries m n (p + 8#32)
    else [.unknown]

/-- The entries of the table at `conf`. -/
def confTable (m : Word → Byte) (conf : Word) : List MpEntry :=
  mpEntries m (confEntry m conf) (confEntries conf)

/-- The processor entry, if it is one. -/
def MpEntry.proc? : MpEntry → Option MpProc
  | .proc p => some p
  | _ => none

/-- The processor entries. -/
def mpProcs (es : List MpEntry) : List MpProc := es.filterMap MpEntry.proc?

@[simp] theorem mpProcs_nil : mpProcs [] = [] := rfl

@[simp] theorem mpProcs_proc (p : MpProc) (es : List MpEntry) :
    mpProcs (.proc p :: es) = p :: mpProcs es := rfl

@[simp] theorem mpProcs_device (es : List MpEntry) : mpProcs (.device :: es) = mpProcs es := rfl

@[simp] theorem mpProcs_unknown (es : List MpEntry) : mpProcs (.unknown :: es) = mpProcs es := rfl

/-! ### What the loop does -/

/-- Processor `k` of `ps` is the last one with a boot flag. -/
def LastBoot (ps : List MpProc) (k : ℕ) : Prop :=
  (∃ p, ps[k]? = some p ∧ p.IsBoot) ∧ ∀ k' p, k < k' → ps[k']? = some p → ¬p.IsBoot

/-- The loop has gone over the entries `es` from `s` to `s'`. -/
structure Walked (es : List MpEntry) (s s' : MpState) : Prop where
  ncpu : s'.ncpu = min (s.ncpu + (mpProcs es).length) ncpuMax
  boot : (∀ p ∈ mpProcs es, ¬p.IsBoot) ∧ s'.bootcpu = s.bootcpu ∨
    ∃ k, LastBoot (mpProcs es) k ∧ s'.bootcpu = min (s.ncpu + k) ncpuMax
  ismp : s'.ismp = false ↔ s.ismp = false ∨ .unknown ∈ es
  writes : ∀ i ∈ s'.cpuWrites, i ∈ s.cpuWrites ∨ i < ncpuMax
  old : ∀ i < s.ncpu, s'.cpus i = s.cpus i
  ids : ∀ i, s.ncpu ≤ i → i < s'.ncpu → (s'.cpus i).cpuId = BitVec.ofNat 8 i
  lapicaddr : s'.lapicaddr = s.lapicaddr

/-- The loop has gone over one processor entry from `s` to `s'`. -/
structure ProcAdded (p : MpProc) (s s' : MpState) : Prop where
  ncpu : s'.ncpu = min (s.ncpu + 1) ncpuMax
  boot : s'.bootcpu = if p.IsBoot then s.ncpu else s.bootcpu
  ismp : s'.ismp = s.ismp
  writes : ∀ i ∈ s'.cpuWrites, i ∈ s.cpuWrites ∨ i < ncpuMax
  old : ∀ i < s.ncpu, s'.cpus i = s.cpus i
  id : s.ncpu < ncpuMax → (s'.cpus s.ncpu).cpuId = BitVec.ofNat 8 s.ncpu
  lapicaddr : s'.lapicaddr = s.lapicaddr

/-- The record of reads is no part of it. -/
theorem ProcAdded.of_readEntry {p : MpProc} {a : Word} (h : ProcAdded p (s.readEntry a) s') :
    ProcAdded p s s' :=
  ⟨h.ncpu, h.boot, h.ismp, h.writes, h.old, h.id, h.lapicaddr⟩

namespace Walked

variable {es : List MpEntry} {p : MpProc}

theorem of_readEntry {a : Word} (h : Walked es (s.readEntry a) s') : Walked es s s' :=
  ⟨h.ncpu, h.boot, h.ismp, h.writes, h.old, h.ids, h.lapicaddr⟩

theorem nil (hs : s.ncpu ≤ ncpuMax) : Walked [] s s where
  ncpu := by simpa using hs
  boot := Or.inl ⟨by simp, rfl⟩
  ismp := by simp
  writes _ hi := Or.inl hi
  old _ _ := rfl
  ids i h h' := by omega
  lapicaddr := rfl

/-- The unknown entry that ends the loop. -/
theorem unknown {a : Word} {fmt : String} {args : List Word} (hs : s.ncpu ≤ ncpuMax) :
    Walked [.unknown] s { (s.readEntry a).say fmt args with ismp := false } where
  ncpu := by simpa [MpState.say, MpState.readEntry] using hs
  boot := Or.inl ⟨by simp, rfl⟩
  ismp := by simp
  writes _ hi := Or.inl hi
  old _ _ := rfl
  ids i h h' := absurd h' (Nat.not_lt.mpr h)
  lapicaddr := rfl

theorem device (h : Walked es s s') : Walked (.device :: es) s s' where
  ncpu := h.ncpu
  boot := h.boot
  ismp := by
    rw [h.ismp]
    simp
  writes := h.writes
  old := h.old
  ids := h.ids
  lapicaddr := h.lapicaddr

/-- The first processor entry of a list has the last boot flag if no later one has one. -/
theorem lastBoot_cons {p : MpProc} {ps : List MpProc} (hp : p.IsBoot)
    (hps : ∀ q ∈ ps, ¬q.IsBoot) : LastBoot (p :: ps) 0 := by
  refine ⟨⟨p, rfl, hp⟩, ?_⟩
  intro k' q hk hq
  obtain ⟨k', rfl⟩ : ∃ j, k' = j + 1 := ⟨k' - 1, by omega⟩
  exact hps q (List.mem_of_getElem? (by simpa using hq))

theorem lastBoot_succ {p : MpProc} {ps : List MpProc} {k : ℕ} (h : LastBoot ps k) :
    LastBoot (p :: ps) (k + 1) := by
  obtain ⟨⟨q, hq, hboot⟩, hlast⟩ := h
  refine ⟨⟨q, by simpa using hq, hboot⟩, ?_⟩
  intro k' q' hk hq'
  obtain ⟨k', rfl⟩ : ∃ j, k' = j + 1 := ⟨k' - 1, by omega⟩
  exact hlast k' q' (by omega) (by simpa using hq')

/-- A processor entry before the entries `es`. -/
theorem proc {s₁ : MpState} (h : Walked es s₁ s') (hs : s.ncpu ≤ ncpuMax)
    (ha : ProcAdded p s s₁) : Walked (.proc p :: es) s s' where
  ncpu := by
    rw [h.ncpu, ha.ncpu, mpProcs_proc, List.length_cons]
    omega
  boot := by
    obtain ⟨hnone, hb⟩ | ⟨k, hk, hb⟩ := h.boot
    · by_cases hp : p.IsBoot
      · -- this entry has the last flag so far
        right
        refine ⟨0, lastBoot_cons hp hnone, ?_⟩
        rw [hb, ha.boot, if_pos hp]
        omega
      · left
        refine ⟨?_, by rw [hb, ha.boot, if_neg hp]⟩
        intro q hq
        obtain rfl | hq := List.mem_cons.mp hq
        · exact hp
        · exact hnone q hq
    · right
      refine ⟨k + 1, lastBoot_succ hk, ?_⟩
      have hncpu := ha.ncpu
      rw [hb, hncpu]
      omega
  ismp := by
    rw [h.ismp, ha.ismp]
    simp
  writes i hi := by
    obtain hi | hi := h.writes i hi
    · exact ha.writes i hi
    · exact Or.inr hi
  old i hi := by
    have hncpu := ha.ncpu
    rw [h.old i (by omega), ha.old i hi]
  ids i hi hlt := by
    have hncpu := ha.ncpu
    have hle : s'.ncpu ≤ ncpuMax := by
      rw [h.ncpu]
      omega
    by_cases heq : i = s.ncpu
    · rw [heq, h.old s.ncpu (by omega), ha.id (by omega)]
    · exact h.ids i (by omega) hlt
  lapicaddr := h.lapicaddr.trans ha.lapicaddr

end Walked

/-- What a processor entry does. -/
theorem mpAddProc_spec (m : Word → Byte) (a : Word) (hs : s.ncpu ≤ ncpuMax) :
    ProcAdded ⟨m (a + 1#32), m (a + 3#32)⟩ s (mpAddProc m a s) := by
  have hboot : (mpNoteBoot m a s).bootcpu =
      if (⟨m (a + 1#32), m (a + 3#32)⟩ : MpProc).IsBoot then s.ncpu else s.bootcpu := by
    rw [mpNoteBoot]
    by_cases hflag : (⟨m (a + 1#32), m (a + 3#32)⟩ : MpProc).IsBoot
    · rw [if_pos hflag, if_pos (show m (a + 3#32) &&& mpprocBoot ≠ 0#8 from hflag)]
      rfl
    · rw [if_neg hflag, if_neg (show ¬m (a + 3#32) &&& mpprocBoot ≠ 0#8 from hflag)]
      rfl
  have hsame : (mpNoteBoot m a s).cpus = s.cpus ∧ (mpNoteBoot m a s).ncpu = s.ncpu ∧
      (mpNoteBoot m a s).ismp = s.ismp ∧ (mpNoteBoot m a s).cpuWrites = s.cpuWrites ∧
      (mpNoteBoot m a s).lapicaddr = s.lapicaddr := by
    rw [mpNoteBoot]
    split <;> exact ⟨rfl, rfl, rfl, rfl, rfl⟩
  rw [mpAddProc]
  generalize mpNoteBoot m a s = noted at hboot hsame ⊢
  obtain ⟨hcpus, hncpu, hismp, hwrites, hlapic⟩ := hsame
  by_cases hroom : s.ncpu < ncpuMax
  · -- the processor gets the next element of `cpus`
    simp only [hncpu, if_pos hroom]
    refine ⟨by change noted.ncpu + 1 = _; omega, hboot, hismp, ?_, ?_, ?_, hlapic⟩
    · intro i hi
      obtain hi | hi := List.mem_append.mp (show i ∈ noted.cpuWrites ++ [s.ncpu] from hi)
      · exact Or.inl (hwrites ▸ hi)
      · exact Or.inr (List.mem_singleton.mp hi ▸ hroom)
    · intro i hi
      change Function.update noted.cpus s.ncpu _ i = _
      rw [Function.update_of_ne (by omega), hcpus]
    · intro _
      change (Function.update noted.cpus s.ncpu _ s.ncpu).cpuId = _
      rw [Function.update_self]
  · -- there are `NCPU` processors already
    simp only [hncpu, if_neg hroom]
    refine ⟨by change noted.ncpu = _; omega, hboot, hismp, ?_, ?_, ?_, hlapic⟩
    · exact fun i hi => Or.inl (hwrites ▸ (show i ∈ noted.cpuWrites from hi))
    · exact fun i _ => congrFun hcpus i
    · exact fun hlt => absurd hlt hroom

/-- `mp_init`'s loop goes over the entries of the table. -/
theorem mpWalk_spec (n : ℕ) (a : Word) {s : MpState} (hs : s.ncpu ≤ ncpuMax) :
    Walked (mpEntries m n a) s (mpWalk m n a s) := by
  induction n generalizing a s with
  | zero => exact .nil hs
  | succ n ih =>
    rw [mpEntries, mpWalk]
    by_cases hproc : m a = mpproc
    · rw [if_pos hproc, if_pos hproc]
      have hadd := mpAddProc_spec m a (s := s.readEntry a) hs
      have hle : (mpAddProc m a (s.readEntry a)).ncpu ≤ ncpuMax := by
        rw [hadd.ncpu]
        omega
      exact (ih _ hle).proc hs hadd.of_readEntry
    · rw [if_neg hproc, if_neg hproc]
      split
      · exact (ih _ (s := s.readEntry a) hs).device.of_readEntry
      · exact .unknown hs

/-! ### Tables in memory -/

/-- Results can be compared. -/
instance decidableEqExcept {ε α : Type} [DecidableEq ε] [DecidableEq α] :
    DecidableEq (Except ε α)
  | .error e, .error e' => decidable_of_iff (e = e') ⟨congrArg _, Except.error.inj⟩
  | .ok a, .ok a' => decidable_of_iff (a = a') ⟨congrArg _, Except.ok.inj⟩
  | .error _, .ok _ => isFalse fun h => by cases h
  | .ok _, .error _ => isFalse fun h => by cases h

/-- An MP table with correct checksum. -/
def mpTable (length count : Byte) (entries : List Byte) : List Byte :=
  let header (checksum : Byte) : List Byte :=
    text "PCMP" ++ [length, 0, 4, checksum] ++ List.replicate 26 0 ++ [count, 0] ++
      [0, 0, 0xE0, 0xFE, 0, 0, 0, 0]
  header (-((header 0 ++ entries).foldl (· + ·) 0)) ++ entries

/-- A processor entry. -/
def procEntry (p : MpProc) : List Byte := [0, p.apicid, 0, p.flags] ++ List.replicate 16 0

/-- The memory of a machine whose firmware has put the floating pointer at the start of the
extended BIOS data area and an MP table after it. -/
def mpImage (table : List Byte) : Word → Byte := fun a =>
  -- the segment of the extended BIOS data area
  if a = 0xF000040E#32 then 0xC0#8
  else if a = 0xF000040F#32 then 0x9F#8
  else (text "_MP_" ++ [0x10, 0xFC, 0x09, 0x00, 1, 4, 0x8B, 0, 0, 0, 0, 0] ++ table).getD
    (a - 0xF009FC00#32).toNat 0#8

/-- Where `mpImage` has the floating pointer. -/
def imageMp : Word := 0xF009FC00#32

/-- Where `mpImage` has the table. -/
def imageConf : Word := 0xF009FC10#32

/-- One processor. -/
def oneCpu : Word → Byte := mpImage (mpTable 64 1 (procEntry ⟨0, 2⟩))

theorem oneCpu_accepted :
    mpconfig smallMachine oneCpu = .ok (some (imageMp, imageConf), []) := by
  decide +kernel

/-! ### The processor table -/

/-- What `mp_init` leaves for a table with the entries `es` and this `lapicaddr`. -/
structure MpInited (es : List MpEntry) (lapicaddr : Word) (s : MpState) : Prop where
  ncpu : s.ncpu = if .unknown ∈ es then 1 else min (mpProcs es).length ncpuMax
  boot : (∀ p ∈ mpProcs es, ¬p.IsBoot) ∧ s.bootcpu = 0 ∨
    ∃ k, LastBoot (mpProcs es) k ∧ s.bootcpu = min k ncpuMax
  ismp : s.ismp = false ↔ .unknown ∈ es
  boot_written : s.bootcpu ∈ s.cpuWrites
  written : ∀ i ∈ s.cpuWrites, i = s.bootcpu ∨ i < ncpuMax
  ids : ∀ i < min (mpProcs es).length ncpuMax, (s.cpus i).cpuId = BitVec.ofNat 8 i
  lapicaddr : s.lapicaddr = if .unknown ∈ es then 0#32 else lapicaddr

/-- What the end of `mp_init` does. -/
theorem mpFinish_fields (m : Word → Byte) (mp : Word) (w : MpState) :
    (mpFinish m mp w).cpus = Function.update w.cpus w.bootcpu
      { w.cpus w.bootcpu with cpuStatus := .started } ∧
    (mpFinish m mp w).bootcpu = w.bootcpu ∧ (mpFinish m mp w).ismp = w.ismp ∧
    (mpFinish m mp w).ncpu = (if w.ismp = false then 1 else w.ncpu) ∧
    (mpFinish m mp w).lapicaddr = (if w.ismp = false then 0#32 else w.lapicaddr) ∧
    (mpFinish m mp w).cpuWrites = w.cpuWrites ++ [w.bootcpu] ∧
    (mpFinish m mp w).entryReads = w.entryReads := by
  rw [mpFinish]
  cases hismp : w.ismp with
  | false =>
    simp only [MpState.writeCpu, hismp, if_true]
    exact ⟨rfl, rfl, rfl, rfl, rfl, rfl, rfl⟩
  | true =>
    simp only [MpState.writeCpu, hismp, Bool.true_eq_false, if_false]
    split <;> exact ⟨rfl, rfl, rfl, rfl, rfl, rfl, rfl⟩

/-- The end of `mp_init` after a loop that went over `es`. -/
theorem Walked.finish {es : List MpEntry} {w : MpState} (h : Walked es s w) (hncpu : s.ncpu = 0)
    (hboot : s.bootcpu = 0) (hismp : s.ismp = true) (hwrites : s.cpuWrites = [])
    (m : Word → Byte) (mp : Word) : MpInited es s.lapicaddr (mpFinish m mp w) := by
  obtain ⟨hcpus, hb, hi, hn, hl, hw, -⟩ := mpFinish_fields m mp w
  have hwboot := h.boot
  have hwncpu := h.ncpu
  simp only [hncpu, hboot, Nat.zero_add] at hwboot hwncpu
  have hwismp : w.ismp = false ↔ .unknown ∈ es := by
    rw [h.ismp, hismp]
    simp
  refine ⟨?_, ?_, ?_, ?_, ?_, ?_, ?_⟩
  · simp only [hn, hwismp, hwncpu]
  · rw [hb]
    exact hwboot
  · rw [hi]
    exact hwismp
  · rw [hb, hw]
    exact List.mem_append_right _ (List.mem_singleton_self _)
  · -- the loop writes below `ncpu`, and the end writes `bootcpu->cpu_status`
    intro i hmem
    rw [hw] at hmem
    obtain hmem | hmem := List.mem_append.mp hmem
    · obtain hmem | hlt := h.writes i hmem
      · rw [hwrites] at hmem
        exact absurd hmem List.not_mem_nil
      · exact Or.inr hlt
    · rw [hb]
      exact Or.inl (List.mem_singleton.mp hmem)
  · intro i hlt
    have hold := h.ids i (by omega) (by omega)
    rw [hcpus]
    by_cases hib : i = w.bootcpu
    · rw [hib, Function.update_self]
      exact hib ▸ hold
    · rw [Function.update_of_ne hib]
      exact hold
  · simp only [hl, hwismp, h.lapicaddr]

/-- `mp_init` with an accepted table. -/
theorem mpInit_spec {mp conf : Word} {said : List Message}
    (hconf : mpconfig B m = .ok (some (mp, conf), said)) (cpus : ℕ → MpCpu) :
    ∃ s, mpInit B m cpus = .ok s ∧ MpInited (confTable m conf) (confLapicaddr m conf) s := by
  have hwalk := mpWalk_spec (m := m) (confEntry m conf) (confEntries conf)
    (s := { cpus := cpus, console := said, ismp := true, lapicaddr := confLapicaddr m conf })
    (Nat.zero_le _)
  refine ⟨_, ?_, hwalk.finish rfl rfl rfl rfl m mp⟩
  rw [mpInit, hconf]
  rfl

/-- What the processor table promises: `ps` are the processor entries of the MP table. -/
structure CpuTableValid (ps : List MpProc) (s : MpState) : Prop where
  ncpu_le : s.ncpu ≤ ncpuMax
  boot_lt : s.bootcpu < ncpuMax
  boot_listed : s.ismp = true → ps ≠ [] → s.bootcpu < s.ncpu
  fallback : s.ismp = false → s.ncpu = 1 ∧ s.bootcpu = 0
  written : ∀ i ∈ s.cpuWrites, i < ncpuMax

/-- For every accepted table, the processor table `mp_init` leaves is valid if and only if no
processor entry after the first `NCPU` ones has a boot flag, and none but the first one has it if
the table has an unknown entry. -/
theorem cpuTable_valid_iff {mp conf : Word} {said : List Message}
    (hconf : mpconfig B m = .ok (some (mp, conf), said)) (cpus : ℕ → MpCpu) :
    ∃ s, mpInit B m cpus = .ok s ∧ (CpuTableValid (mpProcs (confTable m conf)) s ↔
      ∀ k p, (mpProcs (confTable m conf))[k]? = some p → p.IsBoot →
        k < ncpuMax ∧ (.unknown ∈ confTable m conf → k = 0)) := by
  obtain ⟨s, hrun, h⟩ := mpInit_spec hconf cpus
  refine ⟨s, hrun, ?_⟩
  generalize confTable m conf = es at h ⊢
  constructor
  · intro hv k p hk hp
    -- the last boot flag comes no earlier than this one
    obtain ⟨hnone, -⟩ | ⟨k', ⟨-, hlast⟩, hb⟩ := h.boot
    · exact absurd hp (hnone p (List.mem_of_getElem? hk))
    · have hle : k ≤ k' := by
        by_contra hlt
        exact hlast k p (by omega) hk hp
      have hlt := hv.boot_lt
      refine ⟨by omega, fun hun => ?_⟩
      have hzero := (hv.fallback (h.ismp.mpr hun)).2
      have hpos : 0 < ncpuMax := by decide
      omega
  · intro hall
    have hpos : 0 < ncpuMax := by decide
    -- where `bootcpu` points
    have hboot : s.bootcpu = 0 ∨ ∃ k p, (mpProcs es)[k]? = some p ∧ p.IsBoot ∧ s.bootcpu = k := by
      obtain ⟨-, hb⟩ | ⟨k, ⟨⟨p, hk, hp⟩, -⟩, hb⟩ := h.boot
      · exact Or.inl hb
      · have hlt := (hall k p hk hp).1
        exact Or.inr ⟨k, p, hk, hp, by omega⟩
    have hlt : s.bootcpu < ncpuMax := by
      obtain hb | ⟨k, p, hk, hp, hb⟩ := hboot
      · omega
      · rw [hb]
        exact (hall k p hk hp).1
    have hncpu := h.ncpu
    refine ⟨?_, hlt, ?_, ?_, ?_⟩
    · rw [hncpu]
      split <;> omega
    · intro hismp hps
      have hun : ¬MpEntry.unknown ∈ es := fun hc => by
        rw [h.ismp.mpr hc] at hismp
        cases hismp
      have hlen : 0 < (mpProcs es).length := List.length_pos_iff.mpr hps
      rw [hncpu, if_neg hun]
      obtain hb | ⟨k, p, hk, -, hb⟩ := hboot
      · omega
      · obtain ⟨hk, -⟩ := List.getElem?_eq_some_iff.mp hk
        omega
    · intro hismp
      have hun := h.ismp.mp hismp
      refine ⟨by rw [hncpu, if_pos hun], ?_⟩
      obtain hb | ⟨k, p, hk, hp, hb⟩ := hboot
      · exact hb
      · rw [hb]
        exact (hall k p hk hp).2 hun
    · intro i hi
      obtain rfl | hi := h.written i hi
      · exact hlt
      · exact hi

theorem cpuTable_valid_one : ∃ s, mpInit smallMachine oneCpu (fun _ => {}) = .ok s ∧
    CpuTableValid (mpProcs (confTable oneCpu imageConf)) s := by
  obtain ⟨s, hrun, hvalid⟩ := cpuTable_valid_iff oneCpu_accepted fun _ => {}
  refine ⟨s, hrun, hvalid.mpr ?_⟩
  have hprocs : mpProcs (confTable oneCpu imageConf) = [⟨0, 2⟩] := by decide +kernel
  intro k p hk _
  rw [hprocs] at hk
  obtain ⟨hk, -⟩ := List.getElem?_eq_some_iff.mp hk
  have hzero : k = 0 := by simpa using hk
  exact ⟨by rw [hzero]; decide, fun _ => hzero⟩

/-- Nine processors, of which the last one is the boot processor. -/
def nineCpus : Word → Byte :=
  mpImage (mpTable 224 9
    (((List.range 8).flatMap fun i => procEntry ⟨BitVec.ofNat 8 i, 0⟩) ++ procEntry ⟨8, 2⟩))

/-- With nine processors `bootcpu` points past the end of `cpus`. -/
theorem cpuTable_past_end :
    mpconfig smallMachine nineCpus = .ok (some (imageMp, imageConf), []) ∧
    ∃ s, mpInit smallMachine nineCpus (fun _ => {}) = .ok s ∧ s.bootcpu = ncpuMax ∧
      ¬CpuTableValid (mpProcs (confTable nineCpus imageConf)) s := by
  have hconf : mpconfig smallMachine nineCpus = .ok (some (imageMp, imageConf), []) := by
    decide +kernel
  obtain ⟨s, hrun, -⟩ := mpInit_spec hconf fun _ => {}
  have hboot : (mpInit smallMachine nineCpus fun _ => {}).map MpState.bootcpu = .ok ncpuMax := by
    decide +kernel
  rw [hrun] at hboot
  have hboot : s.bootcpu = ncpuMax := Except.ok.inj hboot
  exact ⟨hconf, s, hrun, hboot, fun hv => absurd hv.boot_lt (by omega)⟩

/-! ### The end of the table -/

/-- How many bytes of an entry the loop looks at: the type, and the flags of a processor. -/
def MpEntry.reach : MpEntry → ℕ
  | .proc _ => 4
  | .device => 1
  | .unknown => 1

/-- Where the last byte that the loop looks at ends, counted from the first entry. -/
def tableReach : List MpEntry → ℕ
  | [] => 0
  | [e] => e.reach
  | e :: e' :: es => e.size + tableReach (e' :: es)

/-- The address is inside the table of `len` bytes at `conf`. -/
def InTable (conf : Word) (len : ℕ) (a : Word) : Prop := (a - conf).toNat < len

theorem inTable_add {conf : Word} {len o : ℕ} (ho : o < 2 ^ 32) :
    InTable conf len (conf + BitVec.ofNat 32 o) ↔ o < len := by
  have hoff : conf + BitVec.ofNat 32 o - conf = BitVec.ofNat 32 o := by
    rw [BitVec.add_comm, BitVec.add_sub_cancel]
  rw [InTable, hoff, BitVec.toNat_ofNat, Nat.mod_eq_of_lt ho]

theorem mem_entryReads_mpAddProc {p a : Word} :
    a ∈ (mpAddProc m p s).entryReads ↔
      a ∈ s.entryReads ∨ a = p + 3#32 ∨ ¬s.ncpu < ncpuMax ∧ a = p + 1#32 := by
  have hnote : (mpNoteBoot m p s).entryReads = s.entryReads ++ [p + 3#32] ∧
      (mpNoteBoot m p s).ncpu = s.ncpu := by
    rw [mpNoteBoot]
    split <;> exact ⟨rfl, rfl⟩
  rw [mpAddProc]
  generalize mpNoteBoot m p s = noted at hnote ⊢
  obtain ⟨hreads, hncpu⟩ := hnote
  by_cases hroom : s.ncpu < ncpuMax
  · simp only [hncpu, if_pos hroom]
    change a ∈ noted.entryReads ↔ _
    simp [hreads, hroom]
  · simp only [hncpu, if_neg hroom]
    change a ∈ noted.entryReads ++ [p + 1#32] ↔ _
    simp [hreads, hroom]

theorem mpEntries_eq_nil {n : ℕ} {p : Word} : mpEntries m n p = [] ↔ n = 0 := by
  cases n with
  | zero => simp [mpEntries]
  | succ n =>
    rw [mpEntries]
    split
    · simp
    · split <;> simp

theorem tableReach_cons (e : MpEntry) (es : List MpEntry) :
    tableReach (e :: es) = if es = [] then e.reach else e.size + tableReach es := by
  cases es with
  | nil => rfl
  | cons e' es => rfl

/-- An entry that looks at no more than its own bytes, before `n` others. -/
theorem reach_cons_le {n o len : ℕ} {p : Word} {e : MpEntry} (he : e.reach ≤ e.size) :
    o + tableReach (e :: mpEntries m n p) ≤ len ↔
      o + e.reach ≤ len ∧ (n = 0 ∨ o + e.size + tableReach (mpEntries m n p) ≤ len) := by
  rw [tableReach_cons]
  simp only [mpEntries_eq_nil]
  split <;> omega

/-- The loop stays inside a table of `len` bytes if the entries that are left do. -/
theorem mpWalk_reads {conf : Word} {len : ℕ} (n : ℕ) {o : ℕ} (ho : o + 20 * n < 2 ^ 32)
    (s : MpState) :
    (∀ a ∈ (mpWalk m n (conf + BitVec.ofNat 32 o) s).entryReads, InTable conf len a) ↔
      (∀ a ∈ s.entryReads, InTable conf len a) ∧
        (n = 0 ∨ o + tableReach (mpEntries m n (conf + BitVec.ofNat 32 o)) ≤ len) := by
  induction n generalizing o s with
  | zero => simp [mpWalk]
  | succ n ih =>
    have hnext (k : ℕ) : conf + BitVec.ofNat 32 o + BitVec.ofNat 32 k =
        conf + BitVec.ofNat 32 (o + k) := by
      rw [BitVec.add_assoc, BitVec.ofNat_add]
    have hin (k : ℕ) (hk : k ≤ 20) :
        InTable conf len (conf + BitVec.ofNat 32 o + BitVec.ofNat 32 k) ↔ o + k < len := by
      rw [hnext, inTable_add (by omega)]
    have hhere : InTable conf len (conf + BitVec.ofNat 32 o) ↔ o < len := inTable_add (by omega)
    have hread (P : Word → Prop) :
        (∀ a ∈ (s.readEntry (conf + BitVec.ofNat 32 o)).entryReads, P a) ↔
          (∀ a ∈ s.entryReads, P a) ∧ P (conf + BitVec.ofNat 32 o) := by
      simp [MpState.readEntry, or_imp, forall_and]
    rw [mpWalk, mpEntries]
    by_cases hproc : m (conf + BitVec.ofNat 32 o) = mpproc
    · -- a processor entry is read as far as its flags
      rw [if_pos hproc, if_pos hproc, hnext, ih (by unfold sizeofMpproc; omega),
        reach_cons_le (by simp [MpEntry.reach, MpEntry.size, sizeofMpproc])]
      simp only [mem_entryReads_mpAddProc, or_imp, forall_and, forall_eq, and_imp, hread, hhere,
        hin 3 (by omega), MpEntry.reach, MpEntry.size]
      constructor
      · rintro ⟨⟨⟨hs, -⟩, hflags, -⟩, hrest⟩
        exact ⟨hs, Or.inr ⟨by omega, hrest⟩⟩
      · rintro ⟨hs, hz | ⟨hflags, hrest⟩⟩
        · omega
        · exact ⟨⟨⟨hs, by omega⟩, by omega, fun _ a ha => ha ▸ (hin 1 (by omega)).mpr (by omega)⟩,
            hrest⟩
    · rw [if_neg hproc, if_neg hproc]
      split
      · -- of a device only the type is read
        rw [hnext, ih (by omega), reach_cons_le (by decide)]
        simp only [hread, hhere, MpEntry.reach, MpEntry.size]
        constructor
        · rintro ⟨⟨hs, hlt⟩, hrest⟩
          exact ⟨hs, Or.inr ⟨by omega, hrest⟩⟩
        · rintro ⟨hs, hz | ⟨hlt, hrest⟩⟩
          · omega
          · exact ⟨⟨hs, by omega⟩, hrest⟩
      · -- an unknown type ends the loop
        change (∀ a ∈ (s.readEntry (conf + BitVec.ofNat 32 o)).entryReads, InTable conf len a) ↔ _
        rw [hread, hhere]
        simp only [tableReach, MpEntry.reach]
        constructor
        · rintro ⟨hs, hlt⟩
          exact ⟨hs, Or.inr (by omega)⟩
        · rintro ⟨hs, hz | hlt⟩
          · omega
          · exact ⟨hs, by omega⟩

/-- For every accepted table, every byte of an entry that `mp_init` reads is inside the table if
and only if there are no entries, or they end inside it as far as they are looked at. -/
theorem mpWalk_inside_iff {mp conf : Word} {said : List Message}
    (hconf : mpconfig B m = .ok (some (mp, conf), said)) (cpus : ℕ → MpCpu) :
    ∃ s, mpInit B m cpus = .ok s ∧
      ((∀ a ∈ s.entryReads, InTable conf (confLength m conf) a) ↔
        confEntry m conf = 0 ∨ 44 + tableReach (confTable m conf) ≤ confLength m conf) := by
  refine ⟨_, by rw [mpInit, hconf]; rfl, ?_⟩
  obtain ⟨-, -, -, -, -, -, hreads⟩ := mpFinish_fields m mp (mpWalk m (confEntry m conf)
    (confEntries conf)
    { cpus := cpus, console := said, ismp := true, lapicaddr := confLapicaddr m conf })
  have hcount : confEntry m conf < 2 ^ 16 := (load16 m (conf + 34#32)).isLt
  simp only [hreads]
  rw [confEntries, show (44#32 : Word) = BitVec.ofNat 32 44 from rfl,
    mpWalk_reads (confEntry m conf) (by omega)]
  simp only [List.not_mem_nil, false_imp_iff, implies_true, true_and]
  rfl

theorem mpWalk_inside_one : ∃ s, mpInit smallMachine oneCpu (fun _ => {}) = .ok s ∧
    ∀ a ∈ s.entryReads, InTable imageConf (confLength oneCpu imageConf) a := by
  obtain ⟨s, hrun, hin⟩ := mpWalk_inside_iff oneCpu_accepted fun _ => {}
  exact ⟨s, hrun, hin.mpr (Or.inr (by decide +kernel))⟩

/-- A table that counts an entry and has no room for it. -/
def headerOnly : Word → Byte := mpImage (mpTable 44 1 [])

/-- The loop reads the byte after the end of the table. -/
theorem mpWalk_overruns :
    mpconfig smallMachine headerOnly = .ok (some (imageMp, imageConf), []) ∧
    ∃ s, mpInit smallMachine headerOnly (fun _ => {}) = .ok s ∧
      ¬∀ a ∈ s.entryReads, InTable imageConf (confLength headerOnly imageConf) a := by
  have hconf : mpconfig smallMachine headerOnly = .ok (some (imageMp, imageConf), []) := by
    decide +kernel
  obtain ⟨s, hrun, -⟩ := mpInit_spec hconf fun _ => {}
  have hreads : (mpInit smallMachine headerOnly fun _ => {}).map MpState.entryReads =
      .ok [imageConf + 44#32, imageConf + 47#32] := by
    decide +kernel
  rw [hrun] at hreads
  have hreads : s.entryReads = [imageConf + 44#32, imageConf + 47#32] := Except.ok.inj hreads
  refine ⟨hconf, s, hrun, fun hall => ?_⟩
  have hfirst := hall (imageConf + 44#32) (by rw [hreads]; exact List.mem_cons_self)
  exact absurd hfirst (by unfold InTable; decide +kernel)

end Jos
