import Jos.Inc.Mmu

/-!
# Descriptors

Segment and gate descriptors of `inc/mmu.h`: the structures with their bit-fields, the macros that
fill them in, and the eight bytes that they are in memory, which is what the processor reads.
Each field is read back from where it stands (`Segdesc.bits_fields`, `Segdesc.bits_flags`).
-/

namespace Jos

/-! ### Segments -/

/-- `struct Segdesc`. -/
structure Segdesc where
  sdLim_15_0 : BitVec 16
  sdBase_15_0 : BitVec 16
  sdBase_23_16 : BitVec 8
  sdType : BitVec 4
  sdS : BitVec 1
  sdDpl : BitVec 2
  sdP : BitVec 1
  sdLim_19_16 : BitVec 4
  sdAvl : BitVec 1
  sdRsv1 : BitVec 1
  sdDb : BitVec 1
  sdG : BitVec 1
  sdBase_31_24 : BitVec 8
deriving DecidableEq

/-- `SEG_NULL`. -/
def segNull : Segdesc := ⟨0, 0, 0, 0, 0, 0, 0, 0, 0, 0, 0, 0, 0⟩

/-- `SEG(type, base, lim, dpl)`. -/
def seg (type : BitVec 4) (base lim : Word) (dpl : BitVec 2) : Segdesc where
  sdLim_15_0 := (lim >>> 12).setWidth 16
  sdBase_15_0 := base.setWidth 16
  sdBase_23_16 := (base >>> 16).setWidth 8
  sdType := type
  sdS := 1
  sdDpl := dpl
  sdP := 1
  sdLim_19_16 := (lim >>> 28).setWidth 4
  sdAvl := 0
  sdRsv1 := 0
  sdDb := 1
  sdG := 1
  sdBase_31_24 := (base >>> 24).setWidth 8

/-- `SEG16(type, base, lim, dpl)`. -/
def seg16 (type : BitVec 4) (base lim : Word) (dpl : BitVec 2) : Segdesc where
  sdLim_15_0 := lim.setWidth 16
  sdBase_15_0 := base.setWidth 16
  sdBase_23_16 := (base >>> 16).setWidth 8
  sdType := type
  sdS := 1
  sdDpl := dpl
  sdP := 1
  sdLim_19_16 := (lim >>> 16).setWidth 4
  sdAvl := 0
  sdRsv1 := 0
  sdDb := 1
  sdG := 0
  sdBase_31_24 := (base >>> 24).setWidth 8

/-- The descriptor in memory. -/
def Segdesc.bits (d : Segdesc) : BitVec 64 :=
  d.sdBase_31_24 ++ d.sdG ++ d.sdDb ++ d.sdRsv1 ++ d.sdAvl ++ d.sdLim_19_16 ++ d.sdP ++ d.sdDpl ++
    d.sdS ++ d.sdType ++ d.sdBase_23_16 ++ d.sdBase_15_0 ++ d.sdLim_15_0

/-- `STA_X`. -/
def staX : BitVec 4 := 0x8#4
/-- `STA_W`. -/
def staW : BitVec 4 := 0x2#4
/-- `STA_R`. -/
def staR : BitVec 4 := 0x2#4
/-- `STS_T32A`. -/
def stsT32A : BitVec 4 := 0x9#4
/-- `STS_T32B`. -/
def stsT32B : BitVec 4 := 0xB#4
/-- `STS_IG32`. -/
def stsIG32 : BitVec 4 := 0xE#4
/-- `STS_TG32`. -/
def stsTG32 : BitVec 4 := 0xF#4

/-- What the processor finds in a segment descriptor. -/
structure SegView where
  base : Word
  limit : Word
  type : BitVec 4
  system : Bool
  dpl : BitVec 2
  present : Bool
deriving DecidableEq

/-- The processor reads a segment descriptor. -/
def segView (b : BitVec 64) : SegView where
  base := b.extractLsb' 56 8 ++ (b.extractLsb' 32 8 ++ b.extractLsb' 16 16)
  limit :=
    let limit : BitVec 20 := b.extractLsb' 48 4 ++ b.extractLsb' 0 16
    if b.getLsbD 55 then limit ++ 0xFFF#12 else limit.setWidth 32
  type := b.extractLsb' 40 4
  system := !b.getLsbD 44
  dpl := b.extractLsb' 45 2
  present := b.getLsbD 47

/-! ### Gates -/

/-- `struct Gatedesc`. -/
structure Gatedesc where
  gdOff_15_0 : BitVec 16
  gdSel : BitVec 16
  gdArgs : BitVec 5
  gdRsv1 : BitVec 3
  gdType : BitVec 4
  gdS : BitVec 1
  gdDpl : BitVec 2
  gdP : BitVec 1
  gdOff_31_16 : BitVec 16
deriving DecidableEq

/-- `SETGATE(gate, istrap, sel, off, dpl)`. -/
def setgate (istrap : Bool) (sel : BitVec 16) (off : Word) (dpl : BitVec 2) : Gatedesc where
  gdOff_15_0 := off.setWidth 16
  gdSel := sel
  gdArgs := 0
  gdRsv1 := 0
  gdType := if istrap then stsTG32 else stsIG32
  gdS := 0
  gdDpl := dpl
  gdP := 1
  gdOff_31_16 := (off >>> 16).setWidth 16

/-- The descriptor in memory. -/
def Gatedesc.bits (d : Gatedesc) : BitVec 64 :=
  d.gdOff_31_16 ++ d.gdP ++ d.gdDpl ++ d.gdS ++ d.gdType ++ d.gdRsv1 ++ d.gdArgs ++ d.gdSel ++
    d.gdOff_15_0

/-- What the processor finds in a gate. -/
structure GateView where
  offset : Word
  sel : BitVec 16
  type : BitVec 4
  system : Bool
  dpl : BitVec 2
  present : Bool
deriving DecidableEq

/-- The processor reads a gate. -/
def gateView (b : BitVec 64) : GateView where
  offset := b.extractLsb' 48 16 ++ b.extractLsb' 0 16
  sel := b.extractLsb' 16 16
  type := b.extractLsb' 40 4
  system := !b.getLsbD 44
  dpl := b.extractLsb' 45 2
  present := b.getLsbD 47

/-! ### What is read is what was written -/

/-- Two neighbouring parts of a word are one. -/
theorem append_slices {w : ℕ} (x : BitVec w) (k n m : ℕ) :
    (x >>> (k + n)).setWidth m ++ (x >>> k).setWidth n = (x >>> k).setWidth (m + n) := by
  ext i hi
  simp only [BitVec.getElem_append, BitVec.getElem_setWidth, BitVec.getLsbD_ushiftRight]
  split
  · rfl
  · congr 1
    omega

theorem word_halves (x : Word) : (x >>> 16).setWidth 16 ++ x.setWidth 16 = x := by
  have h := append_slices x 0 16 16
  simpa using h

/-- The parts that a base address is in. -/
theorem base_slices (x : Word) :
    (x >>> 24).setWidth 8 ++ ((x >>> 16).setWidth 8 ++ x.setWidth 16) = x := by
  have hlow : (x >>> 16).setWidth 8 ++ x.setWidth 16 = x.setWidth 24 := by
    have h := append_slices x 0 16 8
    simpa using h
  have hall := append_slices x 0 24 8
  rw [hlow]
  simpa using hall

/-- The parts that a limit is in, when it counts pages. -/
theorem limit_slices (x : Word) :
    ((x >>> 28).setWidth 4 ++ (x >>> 12).setWidth 16) ++ 0xFFF#12 = x ||| 0xFFF#32 := by
  rw [append_slices x 12 16 4]
  have hones : ∀ i < 32, (0xFFF#32).getLsbD i = decide (i < 12) := by decide
  ext i hi
  rw [BitVec.getElem_append, BitVec.getElem_or, ← BitVec.getLsbD_eq_getElem hi,
    ← BitVec.getLsbD_eq_getElem hi, hones i hi]
  split
  case isTrue hlt =>
    have hones' : ∀ i < 12, (0xFFF#12).getLsbD i = true := by decide
    rw [← BitVec.getLsbD_eq_getElem hlt, hones' i hlt]
    simp [hlt]
  case isFalse hge =>
    have hadd : 12 + (i - 12) = i := by omega
    simp [hge, hadd]

theorem gateView_setgate (istrap : Bool) (sel : BitVec 16) (off : Word) (dpl : BitVec 2) :
    gateView (setgate istrap sel off dpl).bits =
      { offset := off, sel := sel, type := if istrap then stsTG32 else stsIG32
        system := true, dpl := dpl, present := true } := by
  unfold gateView Gatedesc.bits setgate
  simp (disch := decide) only [BitVec.extractLsb'_append_eq_of_le,
    BitVec.extractLsb'_append_eq_of_add_le, Nat.sub_self, Nat.reduceSub,
    BitVec.extractLsb'_eq_self, BitVec.getLsbD_append]
  simp [word_halves]

/-- Where the fields of a segment descriptor are. -/
theorem Segdesc.bits_fields (d : Segdesc) :
    d.bits.extractLsb' 56 8 = d.sdBase_31_24 ∧ d.bits.extractLsb' 32 8 = d.sdBase_23_16 ∧
      d.bits.extractLsb' 16 16 = d.sdBase_15_0 ∧ d.bits.extractLsb' 48 4 = d.sdLim_19_16 ∧
      d.bits.extractLsb' 0 16 = d.sdLim_15_0 ∧ d.bits.extractLsb' 40 4 = d.sdType ∧
      d.bits.extractLsb' 45 2 = d.sdDpl := by
  unfold Segdesc.bits
  refine ⟨?_, ?_, ?_, ?_, ?_, ?_, ?_⟩
  all_goals
    simp (disch := decide) only [BitVec.extractLsb'_append_eq_of_le,
      BitVec.extractLsb'_append_eq_of_add_le, Nat.sub_self, Nat.reduceSub,
      BitVec.extractLsb'_eq_self]

/-- And those of one bit. -/
theorem Segdesc.bits_flags (d : Segdesc) :
    d.bits.getLsbD 55 = d.sdG.getLsbD 0 ∧ d.bits.getLsbD 44 = d.sdS.getLsbD 0 ∧
      d.bits.getLsbD 47 = d.sdP.getLsbD 0 := by
  unfold Segdesc.bits
  refine ⟨?_, ?_, ?_⟩
  all_goals
    simp only [BitVec.getLsbD_append, Nat.reduceLT, if_false, if_true, Nat.reduceSub]

/-- The processor reads the fields. -/
theorem segView_bits (d : Segdesc) :
    segView d.bits =
      { base := d.sdBase_31_24 ++ (d.sdBase_23_16 ++ d.sdBase_15_0)
        limit := if d.sdG.getLsbD 0 then (d.sdLim_19_16 ++ d.sdLim_15_0) ++ 0xFFF#12
          else (d.sdLim_19_16 ++ d.sdLim_15_0).setWidth 32
        type := d.sdType, system := !d.sdS.getLsbD 0, dpl := d.sdDpl
        present := d.sdP.getLsbD 0 } := by
  obtain ⟨hhigh, hmid, hlow, hlim, hlim', htype, hdpl⟩ := d.bits_fields
  obtain ⟨hg, hs, hp⟩ := d.bits_flags
  unfold segView
  rw [hhigh, hmid, hlow, hlim, hlim', htype, hdpl, hg, hs, hp]

theorem segView_seg (type : BitVec 4) (base lim : Word) (dpl : BitVec 2) :
    segView (seg type base lim dpl).bits =
      { base := base, limit := lim ||| 0xFFF#32, type := type, system := false, dpl := dpl
        present := true } := by
  have hone : (1 : BitVec 1).getLsbD 0 = true := by decide
  rw [segView_bits, SegView.mk.injEq]
  exact ⟨base_slices base, (if_pos hone).trans (limit_slices lim), rfl, congrArg (!·) hone, rfl,
    hone⟩

/-- A system segment, with a limit in bytes. -/
theorem segView_system {lim : Word} (hlim : lim.toNat < 2 ^ 16) (type : BitVec 4) (base : Word)
    (dpl : BitVec 2) :
    segView { seg16 type base lim dpl with sdS := 0 }.bits =
      { base := base, limit := lim, type := type, system := true, dpl := dpl
        present := true } := by
  have hlimit : ((lim >>> 16).setWidth 4 ++ lim.setWidth 16).setWidth 32 = lim := by
    have h : (lim >>> 16).setWidth 4 ++ lim.setWidth 16 = lim.setWidth 20 := by
      have h' := append_slices lim 0 16 4
      simpa using h'
    rw [h]
    apply BitVec.eq_of_toNat_eq
    rw [BitVec.toNat_setWidth, BitVec.toNat_setWidth]
    omega
  have hone : (1 : BitVec 1).getLsbD 0 = true := by decide
  have hzero : (0 : BitVec 1).getLsbD 0 = false := by decide
  rw [segView_bits, SegView.mk.injEq]
  exact ⟨base_slices base, (if_neg (Bool.eq_false_iff.mp hzero)).trans hlimit, rfl,
    congrArg (!·) hzero, rfl, hone⟩

end Jos
