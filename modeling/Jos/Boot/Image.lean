import Jos.Boot.Main
import Jos.Library.Overlay
import Mathlib.Tactic.IntervalCases

/-!
# The image the boot loader builds

`readseg` reads whole sectors: it starts at the block of `p_pa` and reads up to the end of the
block in which the segment ends, so it writes more than was asked for on both sides. What it
writes behind a segment is overwritten when the next segment is loaded. What it writes in front
of one is never corrected: if an earlier segment ends in that block, its last bytes, or the zeros
at its end, are replaced by whatever the file has there.

* For each loop, one equation gives its result, and says for which amounts of fuel there is one.
* A segment then is a `Layer` (`Proghdr.layer`), and `bootmain` puts these over the headers in
  the order of the file (`bootmain_eq`). The header table is in memory itself, but a segment that
  keeps off the scratch space does not change it.
* The image is right if and only if the sectors read over earlier segments agree with them
  (`ReadsBack`). Two segments in one block show that they need not (`bootmain_overwrites`).

An end in the last sector below 4GB makes the address in `readseg` wrap to zero, and the loop
goes on for ever.
-/

namespace Jos.BootMain

variable {disk : Disk} {mem m : Memory} {hdr : Proghdr} {fuel : ℕ}

/-! ### Reading from the disk -/

theorem selected_eq {offset : Word} (h : offset.toNat < 2 ^ 28) :
    selected offset = offset.toNat := by
  -- the bits that are set for the drive are none of the four that it takes
  have hlow : (offset >>> 24 ||| 0xE0#32).setWidth 8 &&& 0x0F#8 = (offset >>> 24).setWidth 8 := by
    ext i hi
    have hhigh (hi : 4 ≤ i) : offset.getLsbD (24 + i) = false :=
      Nat.testBit_lt_two_pow (Nat.lt_of_lt_of_le h (Nat.pow_le_pow_right (by omega) (by omega)))
    interval_cases i <;> simp_all
  have hport : ((offset >>> 24 ||| 0xE0#32).setWidth 8 &&& 0x0F#8).toNat =
      offset.toNat / 2 ^ 24 := by
    rw [hlow, BitVec.toNat_setWidth, BitVec.toNat_ushiftRight, Nat.shiftRight_eq_div_pow]
    omega
  simp only [selected, hport, BitVec.toNat_setWidth, BitVec.toNat_ushiftRight,
    Nat.shiftRight_eq_div_pow]
  omega

/-- `k` sectors from `s` on, read to block `b` of memory. -/
def sectors (disk : Disk) (s b k : ℕ) : Layer Word Byte where
  covers a := b ≤ a.toNat / 512 ∧ a.toNat / 512 < b + k
  value a := disk (512 * s + (a.toNat - 512 * b))

theorem readsect_eq {b s : ℕ} (hb : b < 2 ^ 23) (hs : s < 2 ^ 28) :
    readsect disk (BitVec.ofNat 32 (512 * b)) (BitVec.ofNat 32 s) mem =
      (sectors disk s b 1).put mem := by
  funext a
  have hsel : selected (BitVec.ofNat 32 s) = s := by
    rw [selected_eq] <;> rw [BitVec.toNat_ofNat] <;> omega
  have ha := a.isLt
  have hsub : (a - BitVec.ofNat 32 (512 * b)).toNat < 512 ↔
      b ≤ a.toNat / 512 ∧ a.toNat / 512 < b + 1 := by
    rw [BitVec.toNat_sub, BitVec.toNat_ofNat]
    omega
  simp only [readsect, insl, hsel, Layer.put, sectors, decide_eq_true_eq]
  by_cases h : b ≤ a.toNat / 512 ∧ a.toNat / 512 < b + 1
  · rw [if_pos h, if_pos (hsub.2 h), BitVec.toNat_sub, BitVec.toNat_ofNat]
    exact congrArg disk (by omega)
  · rw [if_neg h, if_neg (fun h' => h (hsub.1 h'))]

/-- Sectors behind the first one go to the blocks behind it. -/
theorem sectors_over_sectors (s b k : ℕ) (mem : Memory) :
    (sectors disk (s + 1) (b + 1) k).put ((sectors disk s b 1).put mem) =
      (sectors disk s b (k + 1)).put mem := by
  funext a
  simp only [Layer.put, sectors, decide_eq_true_eq]
  by_cases hrest : b + 1 ≤ a.toNat / 512 ∧ a.toNat / 512 < b + 1 + k
  · rw [if_pos hrest, if_pos (by omega)]
    exact congrArg disk (by omega)
  · rw [if_neg hrest]
    by_cases hfirst : b ≤ a.toNat / 512 ∧ a.toNat / 512 < b + 1
    · rw [if_pos hfirst, if_pos (by omega)]
    · rw [if_neg hfirst, if_neg (by omega)]

/-- The sectors that the loop of `readseg` still has to read. -/
def sectorsLeft (endPa : Word) (b : ℕ) : ℕ := (endPa.toNat + 511) / 512 - b

theorem readsegLoop_eq {endPa : Word} (hend : endPa.toNat ≤ 2 ^ 32 - 512) (fuel : ℕ) {b s : ℕ}
    (mem : Memory) (hb : b < 2 ^ 23) (hs : s + 2 ^ 23 < 2 ^ 28 + b) :
    readsegLoop disk endPa fuel (BitVec.ofNat 32 (512 * b)) (BitVec.ofNat 32 s) mem =
      if sectorsLeft endPa b < fuel then
        some ((sectors disk s b (sectorsLeft endPa b)).put mem)
      else none := by
  induction fuel generalizing b s mem with
  | zero => rfl
  | succ fuel ih =>
    have hlt : BitVec.ofNat 32 (512 * b) < endPa ↔ 512 * b < endPa.toNat := by
      rw [BitVec.lt_def, BitVec.toNat_ofNat, Nat.mod_eq_of_lt (by omega)]
    rw [readsegLoop]
    by_cases hmore : 512 * b < endPa.toNat
    · -- one sector, and one block less to read
      have hleft : sectorsLeft endPa b = sectorsLeft endPa (b + 1) + 1 := by
        unfold sectorsLeft
        omega
      have hpa : BitVec.ofNat 32 (512 * b) + sectsize = BitVec.ofNat 32 (512 * (b + 1)) := by
        rw [sectsize, ← BitVec.ofNat_add, Nat.mul_add]
      have hoff : BitVec.ofNat 32 s + 1#32 = BitVec.ofNat 32 (s + 1) := by
        rw [← BitVec.ofNat_add]
      rw [if_pos (hlt.2 hmore), hpa, hoff, ih _ (by omega) (by omega), readsect_eq hb (by omega),
        sectors_over_sectors, hleft]
      simp only [Nat.add_lt_add_iff_right]
    · have hleft : sectorsLeft endPa b = 0 := by
        unfold sectorsLeft
        omega
      rw [if_neg (fun h => hmore (hlt.1 h)), hleft, if_pos (by omega)]
      congr 1
      funext a
      simp only [Layer.put, sectors, decide_eq_true_eq]
      rw [if_neg (by omega)]

/-- Where a segment ends in the last sector, the address wraps before it gets there. -/
theorem readsegLoop_eq_none {endPa : Word} (hend : 2 ^ 32 - 512 < endPa.toNat) (fuel : ℕ)
    {pa : Word} (hpa : pa.toNat % 512 = 0) (offset : Word) (mem : Memory) :
    readsegLoop disk endPa fuel pa offset mem = none := by
  induction fuel generalizing pa offset mem with
  | zero => rfl
  | succ fuel ih =>
    have hlt : pa < endPa := by
      have := pa.isLt
      rw [BitVec.lt_def]
      omega
    rw [readsegLoop, if_pos hlt]
    refine ih ?_ _ _
    rw [BitVec.toNat_add, sectsize, BitVec.toNat_ofNat]
    omega

/-! ### Segments -/

/-- The image on the disk starts at sector 1. -/
def file (disk : Disk) (k : ℕ) : Byte := disk (512 + k)

namespace Proghdr

/-- The bytes `[p_pa, p_pa + p_memsz)`. -/
def Holds (hdr : Proghdr) (a : Word) : Prop :=
  hdr.pPa.toNat ≤ a.toNat ∧ a.toNat < hdr.pPa.toNat + hdr.pMemsz.toNat

/-- The bytes of the sectors that `readseg` reads for the segment: the block of `p_pa` and
the blocks behind it that start before the end. -/
def Reads (hdr : Proghdr) (a : Word) : Prop :=
  hdr.pPa.toNat / 512 ≤ a.toNat / 512 ∧ 512 * (a.toNat / 512) < hdr.pPa.toNat + hdr.pMemsz.toNat

instance (hdr : Proghdr) : DecidablePred hdr.Reads :=
  fun _ => inferInstanceAs (Decidable (_ ∧ _))

/-- The bytes `[p_pa + p_filesz, p_pa + p_memsz)`. -/
def Clears (hdr : Proghdr) (a : Word) : Prop :=
  hdr.pPa.toNat + hdr.pFilesz.toNat ≤ a.toNat ∧ a.toNat < hdr.pPa.toNat + hdr.pMemsz.toNat

instance (hdr : Proghdr) : DecidablePred hdr.Clears :=
  fun _ => inferInstanceAs (Decidable (_ ∧ _))

/-- The byte of the file that belongs at an address when the one at `p_offset` is at `p_pa`. -/
def onDisk (disk : Disk) (hdr : Proghdr) (a : Word) : Byte :=
  file disk (hdr.pOffset.toNat + a.toNat - hdr.pPa.toNat)

/-- The byte of the segment at an address of it. -/
def byte (disk : Disk) (hdr : Proghdr) (a : Word) : Byte :=
  if hdr.Clears a then 0#8 else hdr.onDisk disk a

/-- What the loader writes for a segment. -/
def layer (disk : Disk) (hdr : Proghdr) : Layer Word Byte where
  covers a := hdr.Reads a
  value a := hdr.byte disk a

/-- The end of the segment is in the last sector below 4GB. -/
def Overruns (hdr : Proghdr) : Prop :=
  2 ^ 32 - 512 < hdr.pPa.toNat + hdr.pMemsz.toNat

instance (hdr : Proghdr) : Decidable hdr.Overruns :=
  inferInstanceAs (Decidable (_ < _))

/-- The sectors that `readseg` reads for the segment. -/
def sectorCount (hdr : Proghdr) : ℕ :=
  (hdr.pPa.toNat + hdr.pMemsz.toNat + 511) / 512 - hdr.pPa.toNat / 512

/-- A header that the loader can follow. -/
structure Proper (hdr : Proghdr) : Prop where
  /-- its addresses do not wrap -/
  noWrap : hdr.pPa.toNat + hdr.pMemsz.toNat < 2 ^ 32
  /-- there is not more in the file than in memory -/
  filesz : hdr.pFilesz.toNat ≤ hdr.pMemsz.toNat
  /-- the place in a sector is the place in a block of memory -/
  congruent : hdr.pPa.toNat % 512 = hdr.pOffset.toNat % 512
  /-- it does not touch the scratch space -/
  scratch : hdr.pPa.toNat + hdr.pMemsz.toNat ≤ 0x10000 ∨ 0x11000 ≤ hdr.pPa.toNat

end Proghdr

/-- `readseg` stops unless the end is in the last sector, and then it has read whole sectors. -/
theorem readseg_eq (h : hdr.Proper) :
    readseg disk fuel hdr.pPa hdr.pMemsz hdr.pOffset mem =
      if ¬hdr.Overruns ∧ hdr.sectorCount < fuel then
        some (fun a => if hdr.Reads a then hdr.onDisk disk a else mem a)
      else none := by
  have hnw := h.noWrap
  have hcg := h.congruent
  have hoff := hdr.pOffset.isLt
  have hpa := hdr.pPa.isLt
  have hdown : (hdr.pPa &&& ~~~(sectsize - 1#32)).toNat = hdr.pPa.toNat / 512 * 512 :=
    toNat_and_not_mask hdr.pPa (k := 9) (by decide)
  have hend : (hdr.pPa + hdr.pMemsz).toNat = hdr.pPa.toNat + hdr.pMemsz.toNat := by
    rw [BitVec.toNat_add, Nat.mod_eq_of_lt hnw]
  rw [readseg]
  by_cases hover : hdr.Overruns
  · -- the address passes the end only by wrapping, so the loop goes on for ever
    rw [if_neg (by simp [hover])]
    refine readsegLoop_eq_none (by rw [hend]; exact hover) fuel ?_ _ mem
    rw [hdown]
    omega
  · have hover' : ¬2 ^ 32 - 512 < hdr.pPa.toNat + hdr.pMemsz.toNat := hover
    have hb : hdr.pPa &&& ~~~(sectsize - 1#32) = BitVec.ofNat 32 (512 * (hdr.pPa.toNat / 512)) := by
      apply BitVec.eq_of_toNat_eq
      rw [hdown, BitVec.toNat_ofNat]
      omega
    have hs : hdr.pOffset / sectsize + 1#32 = BitVec.ofNat 32 (hdr.pOffset.toNat / 512 + 1) := by
      apply BitVec.eq_of_toNat_eq
      rw [BitVec.toNat_add, BitVec.toNat_udiv, sectsize, BitVec.toNat_ofNat, BitVec.toNat_ofNat,
        BitVec.toNat_ofNat]
    have hleft : sectorsLeft (hdr.pPa + hdr.pMemsz) (hdr.pPa.toNat / 512) = hdr.sectorCount := by
      rw [sectorsLeft, hend, Proghdr.sectorCount]
    rw [hb, hs, readsegLoop_eq (by omega) fuel mem (by omega) (by omega), hleft]
    simp only [hover, not_false_iff, true_and]
    congr 2
    funext a
    have hcov : (hdr.pPa.toNat / 512 ≤ a.toNat / 512 ∧
        a.toNat / 512 < hdr.pPa.toNat / 512 + hdr.sectorCount) ↔ hdr.Reads a := by
      unfold Proghdr.sectorCount Proghdr.Reads
      omega
    simp only [Layer.put, sectors, decide_eq_true_eq, hcov]
    by_cases hr : hdr.Reads a
    · -- address and offset are congruent, so the byte is the one at its place in the file
      have hr' := hr.1
      rw [if_pos hr, if_pos hr, Proghdr.onDisk, file]
      exact congrArg disk (by omega)
    · rw [if_neg hr, if_neg hr]

/-! ### The headers in the scratch space -/

theorem imageValue_congr {f g : Memory} {a b : Word} {n : ℕ}
    (h : ∀ k < n, f (a + BitVec.ofNat 32 k) = g (b + BitVec.ofNat 32 k)) :
    imageValue f a n = imageValue g b n := by
  have hbytes : imageBytes f a n = imageBytes g b n :=
    List.map_congr_left fun k hk => h k (List.mem_range.1 hk)
  rw [imageValue, imageValue, hbytes]

/-- The scratch space holds the first page of the file. -/
def HeadersIn (disk : Disk) (mem : Memory) : Prop :=
  ∀ k < 4096, mem (elfhdr + BitVec.ofNat 32 k) = file disk k

/-- The file as a memory that starts at address 0. -/
def fileMemory (disk : Disk) : Memory := fun a => file disk a.toNat

theorem HeadersIn.imageValue_eq (h : HeadersIn disk mem) (off : Word) {n : ℕ}
    (hoff : off.toNat + n ≤ 4096) :
    imageValue mem (elfhdr + off) n = imageValue (fileMemory disk) off n := by
  refine imageValue_congr fun k hk => ?_
  have ha : off + BitVec.ofNat 32 k = BitVec.ofNat 32 (off.toNat + k) := by
    rw [BitVec.ofNat_add, BitVec.ofNat_toNat, BitVec.setWidth_eq]
  have hk' : off.toNat + k < 4096 := by omega
  calc mem (elfhdr + off + BitVec.ofNat 32 k)
      = mem (elfhdr + BitVec.ofNat 32 (off.toNat + k)) := by rw [BitVec.add_assoc, ha]
    _ = file disk (off.toNat + k) := h _ hk'
    _ = fileMemory disk (off + BitVec.ofNat 32 k) := by
        rw [fileMemory, ha, BitVec.toNat_ofNat, Nat.mod_eq_of_lt (by omega)]

theorem HeadersIn.proghdrAt_eq (h : HeadersIn disk mem) {off : Word}
    (hoff : off.toNat + 32 ≤ 4096) :
    proghdrAt mem (elfhdr + off) = proghdrAt (fileMemory disk) off := by
  have hfield (d : Word) (hd : d.toNat ≤ 20) :
      imageValue mem (elfhdr + off + d) 4 = imageValue (fileMemory disk) (off + d) 4 := by
    rw [BitVec.add_assoc]
    refine h.imageValue_eq _ ?_
    rw [BitVec.toNat_add]
    omega
  simp only [proghdrAt, hfield 4#32 (by decide), hfield 12#32 (by decide),
    hfield 16#32 (by decide), hfield 20#32 (by decide)]

/-- Writes outside the scratch space do not change the headers. -/
theorem HeadersIn.of_eq (h : HeadersIn disk mem)
    (hm : ∀ a : Word, 0x10000 ≤ a.toNat → a.toNat < 0x11000 → m a = mem a) :
    HeadersIn disk m := by
  intro k hk
  have ha : (elfhdr + BitVec.ofNat 32 k).toNat = 0x10000 + k := by
    rw [elfhdr, BitVec.toNat_add, BitVec.toNat_ofNat, BitVec.toNat_ofNat]
    omega
  rw [hm _ (by omega) (by omega), h k hk]

/-! ### The loop over the headers -/

/-- The address of byte `i` behind the file part of a segment. -/
theorem Proghdr.Proper.clear_toNat (h : hdr.Proper) {i : ℕ}
    (hi : i < hdr.pMemsz.toNat - hdr.pFilesz.toNat) :
    (hdr.pPa + hdr.pFilesz + BitVec.ofNat 32 i).toNat =
      hdr.pPa.toNat + hdr.pFilesz.toNat + i := by
  have hnw := h.noWrap
  have hms := hdr.pMemsz.isLt
  rw [BitVec.toNat_add, BitVec.toNat_add, BitVec.toNat_ofNat]
  omega

/-- One byte is cleared, and then the rest. -/
theorem Proghdr.Proper.clear_succ (h : hdr.Proper) {i : ℕ}
    (hi : i < hdr.pMemsz.toNat - hdr.pFilesz.toNat) (mem : Memory) :
    (fun a => if hdr.Clears a ∧ hdr.pPa.toNat + hdr.pFilesz.toNat + (i + 1) ≤ a.toNat then 0#8
      else Function.update mem (hdr.pPa + hdr.pFilesz + BitVec.ofNat 32 i) 0#8 a) =
    fun a => if hdr.Clears a ∧ hdr.pPa.toNat + hdr.pFilesz.toNat + i ≤ a.toNat then 0#8
      else mem a := by
  have hat := h.clear_toNat hi
  funext a
  by_cases hai : a = hdr.pPa + hdr.pFilesz + BitVec.ofNat 32 i
  · have hcl : hdr.Clears a := by
      unfold Proghdr.Clears
      rw [hai, hat]
      omega
    have hge : hdr.pPa.toNat + hdr.pFilesz.toNat + i ≤ a.toNat := by rw [hai, hat]
    rw [if_pos (show hdr.Clears a ∧ _ from ⟨hcl, hge⟩), hai, Function.update_self, ite_self]
  · -- the address of this step is the only one that the two ranges do not share
    have hne : a.toNat ≠ hdr.pPa.toNat + hdr.pFilesz.toNat + i := fun h' =>
      hai (BitVec.eq_of_toNat_eq (h'.trans hat.symm))
    have hrange : hdr.pPa.toNat + hdr.pFilesz.toNat + (i + 1) ≤ a.toNat ↔
        hdr.pPa.toNat + hdr.pFilesz.toNat + i ≤ a.toNat := by omega
    rw [Function.update_of_ne hai]
    simp only [hrange]

theorem clearLoop_eq (h : hdr.Proper) {off : Word} (hoff : off.toNat + 32 ≤ 4096)
    (hhdr : proghdrAt (fileMemory disk) off = hdr) (fuel : ℕ) {i : ℕ} (mem : Memory)
    (hm : HeadersIn disk mem) (hi : i ≤ hdr.pMemsz.toNat - hdr.pFilesz.toNat) :
    clearLoop (elfhdr + off) fuel (BitVec.ofNat 32 i) mem =
      if hdr.pMemsz.toNat - hdr.pFilesz.toNat - i < fuel then
        some (fun a => if hdr.Clears a ∧ hdr.pPa.toNat + hdr.pFilesz.toNat + i ≤ a.toNat
          then 0#8 else mem a)
      else none := by
  have hnw := h.noWrap
  have hfs := h.filesz
  have hms := hdr.pMemsz.isLt
  have hsub : (hdr.pMemsz - hdr.pFilesz).toNat = hdr.pMemsz.toNat - hdr.pFilesz.toNat := by
    rw [BitVec.toNat_sub]
    omega
  induction fuel generalizing i mem with
  | zero => rfl
  | succ fuel ih =>
    have hlt : BitVec.ofNat 32 i < hdr.pMemsz - hdr.pFilesz ↔
        i < hdr.pMemsz.toNat - hdr.pFilesz.toNat := by
      rw [BitVec.lt_def, hsub, BitVec.toNat_ofNat, Nat.mod_eq_of_lt (by omega)]
    rw [clearLoop, hm.proghdrAt_eq hoff, hhdr]
    by_cases hmore : i < hdr.pMemsz.toNat - hdr.pFilesz.toNat
    · have hnext : BitVec.ofNat 32 i + 1#32 = BitVec.ofNat 32 (i + 1) := by
        rw [← BitVec.ofNat_add]
      -- the header that the loop reads in every round is not among the bytes it clears
      have hm' : HeadersIn disk
          (Function.update mem (hdr.pPa + hdr.pFilesz + BitVec.ofNat 32 i) 0#8) := by
        refine hm.of_eq fun a hlo hhi => Function.update_of_ne ?_ _ _
        rintro rfl
        have hat := h.clear_toNat hmore
        have hscratch := h.scratch
        omega
      simp only [hlt.2 hmore, if_true]
      rw [hnext, ih _ hm' (by omega)]
      have hfuel : hdr.pMemsz.toNat - hdr.pFilesz.toNat - (i + 1) < fuel ↔
          hdr.pMemsz.toNat - hdr.pFilesz.toNat - i < fuel + 1 := by omega
      simp only [hfuel]
      rw [h.clear_succ hmore]
    · simp only [hlt, hmore, if_false]
      rw [if_pos (by omega)]
      congr 1
      funext a
      rw [if_neg]
      unfold Proghdr.Clears
      omega

/-- There is enough fuel for the two loops of a segment. -/
def Proghdr.Enough (hdr : Proghdr) (fuel : ℕ) : Prop :=
  ¬hdr.Overruns ∧ hdr.sectorCount < fuel ∧ hdr.pMemsz.toNat - hdr.pFilesz.toNat < fuel

instance (hdr : Proghdr) (fuel : ℕ) : Decidable (hdr.Enough fuel) :=
  inferInstanceAs (Decidable (_ ∧ _ ∧ _))

/-- The scratch space is whole sectors, so rounding does not bring a segment into it. -/
theorem Proghdr.Proper.not_reads (h : hdr.Proper) {a : Word} (hlo : 0x10000 ≤ a.toNat)
    (hhi : a.toNat < 0x11000) : ¬hdr.Reads a := by
  have hs := h.scratch
  unfold Proghdr.Reads
  omega

/-- What the body of the loop does with a proper segment. -/
theorem loadSegment_eq (h : hdr.Proper) {off : Word} (hoff : off.toNat + 32 ≤ 4096)
    (hhdr : proghdrAt (fileMemory disk) off = hdr) (hm : HeadersIn disk mem) :
    loadSegment disk fuel (elfhdr + off) mem =
      if hdr.Enough fuel then some ((hdr.layer disk).put mem) else none := by
  have hfs := h.filesz
  have hnw := h.noWrap
  rw [loadSegment, hm.proghdrAt_eq hoff, hhdr]
  simp only [readseg_eq h]
  by_cases hread : ¬hdr.Overruns ∧ hdr.sectorCount < fuel
  · simp only [if_pos hread, Option.bind_eq_bind, Option.bind_some]
    rw [show 0#32 = BitVec.ofNat 32 0 from rfl, clearLoop_eq h hoff hhdr fuel _ _ (Nat.zero_le _)]
    · have henough : hdr.Enough fuel ↔ hdr.pMemsz.toNat - hdr.pFilesz.toNat - 0 < fuel :=
        ⟨fun he => he.2.2, fun he => ⟨hread.1, hread.2, he⟩⟩
      simp only [henough]
      congr 2
      funext a
      have hclears : hdr.Clears a ∧ hdr.pPa.toNat + hdr.pFilesz.toNat + 0 ≤ a.toNat ↔
          hdr.Clears a := ⟨fun h' => h'.1, fun h' => ⟨h', h'.1⟩⟩
      simp only [hclears, Layer.put, Proghdr.layer, Proghdr.byte, decide_eq_true_eq]
      by_cases hc : hdr.Clears a
      · -- what is cleared was read before
        have hr : hdr.Reads a := by
          unfold Proghdr.Clears at hc
          unfold Proghdr.Reads
          omega
        simp only [hc, hr, if_true]
      · simp only [hc, if_false]
    · exact hm.of_eq fun a hlo hhi => if_neg (h.not_reads hlo hhi)
  · rw [if_neg hread, if_neg fun he => hread ⟨he.1, he.2.1⟩]
    rfl

/-! ### `bootmain` -/

/-- `e_phoff` of the file. -/
def phoff (disk : Disk) : Word := imageValue (fileMemory disk) 28#32 4

/-- `e_phnum` of the file. -/
def phnum (disk : Disk) : ℕ := (imageValue (fileMemory disk) 44#32 2).toNat

/-- The program headers of the file. -/
def segments (disk : Disk) : List Proghdr :=
  (List.range (phnum disk)).map fun i =>
    proghdrAt (fileMemory disk) (phoff disk + BitVec.ofNat 32 (32 * i))

/-- The disks of which the loader can be expected to load something: a valid ELF file from sector
1 on, its program headers in the first page. -/
structure Bootable (disk : Disk) : Prop where
  /-- the magic number is right -/
  magic : imageValue (fileMemory disk) 0#32 4 = elfMagic
  /-- the headers are in the first 4096 bytes -/
  headers : (phoff disk).toNat + 32 * phnum disk ≤ 4096
  /-- each segment by itself is in order -/
  proper : ∀ hdr ∈ segments disk, hdr.Proper
  /-- the segments are listed in increasing order -/
  increasing : (segments disk).Pairwise fun s t => s.pPa ≤ t.pPa
  /-- no two of them share an address -/
  disjoint : (segments disk).Pairwise fun s t => ∀ a, s.Holds a → ¬t.Holds a

theorem segments_getElem? {i : ℕ} (hi : i < phnum disk) :
    (segments disk)[i]? =
      some (proghdrAt (fileMemory disk) (phoff disk + BitVec.ofNat 32 (32 * i))) := by
  simp [segments, hi]

/-- The headers from `i` on. -/
theorem segments_drop {i : ℕ} (hi : i < phnum disk) :
    (segments disk).drop i = proghdrAt (fileMemory disk) (phoff disk + BitVec.ofNat 32 (32 * i)) ::
      (segments disk).drop (i + 1) := by
  have hlen : i < (segments disk).length := by simpa [segments] using hi
  rw [List.drop_eq_getElem_cons hlen]
  congr 1
  exact Option.some.inj ((List.getElem?_eq_getElem hlen).symm.trans (segments_getElem? hi))

/-- The address of header `i`, which is in the page that `bootmain` has read. -/
theorem Bootable.header_toNat (hd : Bootable disk) {i : ℕ} (hi : i ≤ phnum disk) :
    (elfhdr + phoff disk + BitVec.ofNat 32 (32 * i)).toNat =
      0x10000 + (phoff disk).toNat + 32 * i := by
  have hh := hd.headers
  rw [elfhdr, BitVec.toNat_add, BitVec.toNat_add, BitVec.toNat_ofNat, BitVec.toNat_ofNat]
  omega

/-- The loop from header `i` on. -/
theorem loadLoop_eq (hd : Bootable disk) (fuel n : ℕ) {i : ℕ} (mem : Memory)
    (hi : i ≤ phnum disk) (hm : HeadersIn disk mem) :
    loadLoop disk fuel (elfhdr + phoff disk + BitVec.ofNat 32 (32 * phnum disk)) n
      (elfhdr + phoff disk + BitVec.ofNat 32 (32 * i)) mem =
    if (∀ hdr ∈ (segments disk).drop i, hdr.Enough fuel) ∧ phnum disk - i < n then
      some (Layer.putAll (((segments disk).drop i).map (·.layer disk)) mem)
    else none := by
  have hh := hd.headers
  induction n generalizing i mem with
  | zero => simp [loadLoop]
  | succ n ih =>
    have hlt : elfhdr + phoff disk + BitVec.ofNat 32 (32 * i) <
        elfhdr + phoff disk + BitVec.ofNat 32 (32 * phnum disk) ↔ i < phnum disk := by
      rw [BitVec.lt_def, hd.header_toNat hi, hd.header_toNat le_rfl]
      omega
    rw [loadLoop]
    by_cases hmore : i < phnum disk
    · set off := phoff disk + BitVec.ofNat 32 (32 * i) with hoff
      set hdr := proghdrAt (fileMemory disk) off with hhdr
      have hofflt : off.toNat + 32 ≤ 4096 := by
        rw [hoff, BitVec.toNat_add, BitVec.toNat_ofNat]
        omega
      have hdrop : (segments disk).drop i = hdr :: (segments disk).drop (i + 1) :=
        segments_drop hmore
      have hmem : hdr ∈ segments disk :=
        List.mem_of_mem_drop (i := i) (by rw [hdrop]; exact List.mem_cons_self)
      have hprop : hdr.Proper := hd.proper hdr hmem
      have hnext : elfhdr + phoff disk + BitVec.ofNat 32 (32 * i) + 32#32 =
          elfhdr + phoff disk + BitVec.ofNat 32 (32 * (i + 1)) := by
        rw [Nat.mul_add, BitVec.ofNat_add, ← BitVec.add_assoc]
      rw [if_pos (hlt.2 hmore), hnext, BitVec.add_assoc elfhdr, ← hoff,
        loadSegment_eq hprop hofflt hhdr.symm hm, hdrop]
      by_cases hen : hdr.Enough fuel
      · -- the next header is still there when the segment is loaded
        have hm' : HeadersIn disk ((hdr.layer disk).put mem) := by
          refine hm.of_eq fun a hlo hhi => ?_
          simp [Layer.put, Proghdr.layer, hprop.not_reads hlo hhi]
        rw [if_pos hen, Option.bind_eq_bind, Option.bind_some, ih _ hmore hm', List.map_cons,
          Layer.putAll_cons]
        have hcond : (∀ hdr ∈ (segments disk).drop (i + 1), hdr.Enough fuel) ∧
            phnum disk - (i + 1) < n ↔
            (∀ h ∈ hdr :: (segments disk).drop (i + 1), h.Enough fuel) ∧
              phnum disk - i < n + 1 := by
          rw [List.forall_mem_cons]
          constructor
          · rintro ⟨hall, hn⟩
            exact ⟨⟨hen, hall⟩, by omega⟩
          · rintro ⟨⟨-, hall⟩, hn⟩
            exact ⟨hall, by omega⟩
        simp only [hcond]
      · rw [if_neg hen, if_neg fun h => hen (h.1 hdr List.mem_cons_self)]
        rfl
    · have hi' : i = phnum disk := by omega
      have hdrop : (segments disk).drop i = [] := by
        rw [hi']
        exact List.drop_eq_nil_of_le (by simp [segments])
      rw [if_neg (fun h => hmore (hlt.1 h)), hdrop, if_pos ⟨by simp, by omega⟩]
      rfl

/-- The headers as `bootmain` reads them. -/
theorem readseg_headers (mem : Memory) (fuel : ℕ) :
    readseg disk fuel elfhdr (sectsize * 8#32) 0#32 mem =
      if 8 < fuel then some ((sectors disk 1 128 8).put mem) else none := by
  exact readsegLoop_eq (show (elfhdr + sectsize * 8#32).toNat ≤ 2 ^ 32 - 512 by decide) fuel
    (b := 128) (s := 1) mem (by decide) (by decide)

theorem headersIn_readseg (disk : Disk) (mem : Memory) :
    HeadersIn disk ((sectors disk 1 128 8).put mem) := by
  intro k hk
  have ha : (elfhdr + BitVec.ofNat 32 k).toNat = 0x10000 + k := by
    rw [elfhdr, BitVec.toNat_add, BitVec.toNat_ofNat, BitVec.toNat_ofNat]
    omega
  simp only [Layer.put, sectors, decide_eq_true_eq, ha]
  rw [if_pos (by omega), file]
  exact congrArg disk (by omega)

/-- The headers, and then every segment. -/
def imageLayers (disk : Disk) : List (Layer Word Byte) :=
  sectors disk 1 128 8 :: (segments disk).map (·.layer disk)

/-- `bootmain` reaches the jump if there is enough fuel for each segment, and memory is then the
headers with the segments over them. -/
theorem bootmain_eq (hd : Bootable disk) (mem : Memory) (fuel : ℕ) :
    bootmain disk fuel mem =
      if 8 < fuel ∧ (∀ hdr ∈ segments disk, hdr.Enough fuel) ∧ phnum disk < fuel then
        some (.jump (imageValue (fileMemory disk) 24#32 4)
          (Layer.putAll (imageLayers disk) mem))
      else none := by
  have hm₀ := headersIn_readseg disk mem
  have hh := hd.headers
  rw [bootmain, readseg_headers]
  by_cases h8 : 8 < fuel
  · rw [if_pos h8]
    set mem₀ := (sectors disk 1 128 8).put mem with hmem₀
    have hmagic : imageValue mem₀ elfhdr 4 = elfMagic := by
      have h0 := hm₀.imageValue_eq 0#32 (n := 4) (by decide)
      rw [BitVec.add_zero] at h0
      exact h0.trans hd.magic
    have hphoff : imageValue mem₀ (elfhdr + 28#32) 4 = phoff disk :=
      hm₀.imageValue_eq _ (by decide)
    have hphnum : 32#32 * imageValue mem₀ (elfhdr + 44#32) 2 =
        BitVec.ofNat 32 (32 * phnum disk) := by
      rw [hm₀.imageValue_eq 44#32 (by decide), phnum, BitVec.ofNat_mul,
        BitVec.ofNat_toNat, BitVec.setWidth_eq]
    have hloop := loadLoop_eq hd fuel fuel (i := 0) mem₀ (Nat.zero_le _) hm₀
    rw [Nat.mul_zero, BitVec.add_zero, List.drop_zero, Nat.sub_zero] at hloop
    simp only [Option.bind_eq_bind, Option.bind_some, hmagic, ne_eq, not_true_eq_false, if_false,
      hphoff, hphnum, hloop]
    by_cases hen : (∀ hdr ∈ segments disk, hdr.Enough fuel) ∧ phnum disk < fuel
    · -- no segment is in the way of the headers, so the entry is the one of the file
      have hm₁ : HeadersIn disk
          (Layer.putAll ((segments disk).map (·.layer disk)) mem₀) := by
        refine hm₀.of_eq fun a hlo hhi => Layer.putAll_of_none fun l hl => ?_
        obtain ⟨hdr, hhdr, rfl⟩ := List.mem_map.1 hl
        simpa [Proghdr.layer] using (hd.proper hdr hhdr).not_reads hlo hhi
      rw [if_pos hen, if_pos ⟨h8, hen⟩, Option.bind_some, hm₁.imageValue_eq _ (by decide)]
      rfl
    · rw [if_neg hen, if_neg fun h => hen h.2]
      rfl
  · rw [if_neg h8, if_neg fun h => h8 h.1]
    rfl

/-! ### The segments in memory -/

/-- Every segment is in memory as the file describes it. -/
def Built (disk : Disk) (m : Memory) : Prop :=
  ∀ hdr ∈ segments disk,
    (∀ k < hdr.pFilesz.toNat,
      m (hdr.pPa + BitVec.ofNat 32 k) = file disk (hdr.pOffset.toNat + k)) ∧
    ∀ k, hdr.pFilesz.toNat ≤ k → k < hdr.pMemsz.toNat → m (hdr.pPa + BitVec.ofNat 32 k) = 0#8

theorem Proghdr.Proper.byte_add (h : hdr.Proper) (disk : Disk) {k : ℕ} (hk : k < hdr.pMemsz.toNat) :
    hdr.Holds (hdr.pPa + BitVec.ofNat 32 k) ∧
      hdr.byte disk (hdr.pPa + BitVec.ofNat 32 k) =
        if hdr.pFilesz.toNat ≤ k then 0#8 else file disk (hdr.pOffset.toNat + k) := by
  have hnw := h.noWrap
  have hat : (hdr.pPa + BitVec.ofNat 32 k).toNat = hdr.pPa.toNat + k := by
    rw [BitVec.toNat_add, BitVec.toNat_ofNat]
    omega
  have hc : hdr.Clears (hdr.pPa + BitVec.ofNat 32 k) ↔ hdr.pFilesz.toNat ≤ k := by
    unfold Proghdr.Clears
    omega
  refine ⟨?_, ?_⟩
  · unfold Proghdr.Holds
    omega
  · simp only [Proghdr.byte, hc, Proghdr.onDisk, hat]
    congr 2
    omega

theorem built_iff (hd : Bootable disk) :
    Built disk m ↔ ∀ hdr ∈ segments disk, ∀ a, hdr.Holds a → m a = hdr.byte disk a := by
  constructor
  · intro hb hdr hhdr a ha
    have hh : hdr.pPa.toNat ≤ a.toNat ∧ a.toNat < hdr.pPa.toNat + hdr.pMemsz.toNat := ha
    -- `Built` counts from the start of the segment, `Holds` goes by the address
    obtain ⟨k, hk⟩ : ∃ k, a.toNat = hdr.pPa.toNat + k := ⟨a.toNat - hdr.pPa.toNat, by omega⟩
    obtain rfl : a = hdr.pPa + BitVec.ofNat 32 k := by
      have := a.isLt
      apply BitVec.eq_of_toNat_eq
      rw [BitVec.toNat_add, BitVec.toNat_ofNat]
      omega
    have hkm : k < hdr.pMemsz.toNat := by omega
    rw [((hd.proper hdr hhdr).byte_add disk hkm).2]
    split_ifs with hf
    · exact (hb hdr hhdr).2 k hf hkm
    · exact (hb hdr hhdr).1 k (by omega)
  · intro hb hdr hhdr
    have hp := hd.proper hdr hhdr
    have hfs := hp.filesz
    refine ⟨fun k hk => ?_, fun k hf hk => ?_⟩
    · obtain ⟨hholds, hbyte⟩ := hp.byte_add disk (k := k) (by omega)
      rw [hb hdr hhdr _ hholds, hbyte, if_neg (by omega)]
    · obtain ⟨hholds, hbyte⟩ := hp.byte_add disk hk
      rw [hb hdr hhdr _ hholds, hbyte, if_pos hf]

theorem Proghdr.Holds.reads {a : Word} (h : hdr.Holds a) : hdr.Reads a := by
  unfold Proghdr.Holds at h
  unfold Proghdr.Reads
  omega

/-- Where a later segment is read over a byte of an earlier one, the last such read finds on the
disk what the earlier segment has there. -/
def ReadsBack (disk : Disk) : Prop :=
  ∀ (i j : ℕ) (s t : Proghdr), i < j → (segments disk)[i]? = some s → (segments disk)[j]? = some t →
    ∀ a, s.Holds a → t.Reads a →
      (∀ (k : ℕ) (u : Proghdr), j < k → (segments disk)[k]? = some u → ¬u.Reads a) →
      t.onDisk disk a = s.byte disk a

/-- Where no segment has a byte in a sector that a later one reads, nothing is read over it. -/
theorem readsBack_of_apart
    (h : (segments disk).Pairwise fun s t => ∀ a, s.Holds a → ¬t.Reads a) : ReadsBack disk := by
  intro i j s t hij hs ht a ha hr
  obtain ⟨hi, rfl⟩ := List.getElem?_eq_some_iff.1 hs
  obtain ⟨hj, rfl⟩ := List.getElem?_eq_some_iff.1 ht
  exact absurd hr (List.pairwise_iff_getElem.1 h i j hi hj hij a ha)

theorem isLast_layer_iff {a : Word} {j : ℕ} {l : Layer Word Byte} :
    Layer.IsLast ((segments disk).map (·.layer disk)) a j l ↔
      ∃ t, l = t.layer disk ∧ (segments disk)[j]? = some t ∧ t.Reads a ∧
        ∀ (k : ℕ) (u : Proghdr), j < k → (segments disk)[k]? = some u → ¬u.Reads a := by
  constructor
  · rintro ⟨hj, hc, hlast⟩
    rw [List.getElem?_map, Option.map_eq_some_iff] at hj
    obtain ⟨t, ht, rfl⟩ := hj
    refine ⟨t, rfl, ht, by simpa [Proghdr.layer] using hc, fun k u hk hu => ?_⟩
    have hk' := hlast k (u.layer disk) hk (by rw [List.getElem?_map, hu]; rfl)
    simpa [Proghdr.layer] using hk'
  · rintro ⟨t, rfl, ht, hr, hlast⟩
    refine ⟨by rw [List.getElem?_map, ht]; rfl, by simpa [Proghdr.layer] using hr,
      fun k l hk hl => ?_⟩
    rw [List.getElem?_map, Option.map_eq_some_iff] at hl
    obtain ⟨u, hu, rfl⟩ := hl
    simpa [Proghdr.layer] using hlast k u hk hu

/-- A segment does not clear bytes of another one. -/
theorem Bootable.byte_eq_onDisk (hd : Bootable disk) {i j : ℕ} {s t : Proghdr} (hij : i < j)
    (hs : (segments disk)[i]? = some s) (ht : (segments disk)[j]? = some t) {a : Word}
    (ha : s.Holds a) : t.byte disk a = t.onDisk disk a := by
  obtain ⟨hi, rfl⟩ := List.getElem?_eq_some_iff.1 hs
  obtain ⟨hj, rfl⟩ := List.getElem?_eq_some_iff.1 ht
  refine if_neg fun hc => ?_
  have hdis := List.pairwise_iff_getElem.1 hd.disjoint i j hi hj hij a ha
  unfold Proghdr.Clears at hc
  unfold Proghdr.Holds at hdis
  omega

theorem built_putAll_iff (hd : Bootable disk) (mem : Memory) :
    Built disk (Layer.putAll ((segments disk).map (·.layer disk)) mem) ↔ ReadsBack disk := by
  rw [built_iff hd]
  constructor
  · intro hb i j s t hij hs ht a ha hr hlast
    have hval := Layer.putAll_of_last (m := mem) (isLast_layer_iff.2 ⟨t, rfl, ht, hr, hlast⟩)
    calc t.onDisk disk a
        = t.byte disk a := (hd.byte_eq_onDisk hij hs ht ha).symm
      _ = Layer.putAll ((segments disk).map (·.layer disk)) mem a := hval.symm
      _ = s.byte disk a := hb s (List.mem_of_getElem? hs) a ha
  · intro hrb s hs a ha
    obtain ⟨i, hi⟩ := List.mem_iff_getElem?.1 hs
    have hi' : ((segments disk).map (·.layer disk))[i]? = some (s.layer disk) := by
      rw [List.getElem?_map, hi]
      rfl
    have hcov : (s.layer disk).covers a = true := by simp [Proghdr.layer, ha.reads]
    -- the last segment that is read over the address is `s` or one after it
    rcases Layer.exists_last_or_none ((segments disk).map (·.layer disk)) a with
      ⟨j, l, hl⟩ | hnone
    · have hij := hl.le hi' hcov
      rw [Layer.putAll_of_last hl]
      obtain ⟨t, rfl, ht, hr, hlast⟩ := isLast_layer_iff.1 hl
      rcases Nat.eq_or_lt_of_le hij with rfl | hij
      · obtain rfl : s = t := Option.some.inj (hi.symm.trans ht)
        rfl
      · exact (hd.byte_eq_onDisk hij hi ht ha).trans (hrb i j s t hij hi ht a ha hr hlast)
    · exact absurd (hnone _ (List.mem_of_getElem? hi')) (by simp [hcov])

/-- The loader reaches the jump unless a segment ends in the last sector below 4GB. -/
theorem bootmain_jumps_iff (hd : Bootable disk) (mem : Memory) :
    (∃ fuel entry m, bootmain disk fuel mem = some (.jump entry m)) ↔
      ∀ hdr ∈ segments disk, ¬hdr.Overruns := by
  simp only [bootmain_eq hd]
  constructor
  · rintro ⟨fuel, entry, m, h⟩ hdr hhdr
    split_ifs at h with hen
    exact (hen.2.1 hdr hhdr).1
  · intro hno
    -- no loop tests its condition more often than this
    refine ⟨2 ^ 32, _, _, if_pos ⟨by decide, fun hdr hhdr => ⟨hno hdr hhdr, ?_, ?_⟩, ?_⟩⟩
    · have := (hd.proper hdr hhdr).noWrap
      unfold Proghdr.sectorCount
      omega
    · have := hdr.pMemsz.isLt
      omega
    · have := hd.headers
      omega

/-- The loader builds the image if and only if it never gets to the jump, or the sectors that it
reads over earlier segments happen to hold what these segments need. -/
theorem bootmain_builds_iff (hd : Bootable disk) (mem : Memory) :
    ((∃ fuel entry m, bootmain disk fuel mem = some (.jump entry m)) ↔
      ∀ hdr ∈ segments disk, ¬hdr.Overruns) ∧
    ((∀ fuel entry m, bootmain disk fuel mem = some (.jump entry m) →
        entry = imageValue (fileMemory disk) 24#32 4 ∧ Built disk m) ↔
      (∃ hdr ∈ segments disk, hdr.Overruns) ∨ ReadsBack disk) := by
  refine ⟨bootmain_jumps_iff hd mem, ⟨fun h => ?_, fun h fuel entry m hjump => ?_⟩⟩
  · -- where a segment overruns there is no jump, and `h` says nothing
    by_cases hno : ∀ hdr ∈ segments disk, ¬hdr.Overruns
    · obtain ⟨fuel, entry, m, hjump⟩ := (bootmain_jumps_iff hd mem).2 hno
      have hbuilt := (h fuel entry m hjump).2
      rw [bootmain_eq hd] at hjump
      split_ifs at hjump
      cases hjump
      exact .inr ((built_putAll_iff hd _).1 hbuilt)
    · push Not at hno
      exact .inl hno
  · have hno := (bootmain_jumps_iff hd mem).1 ⟨fuel, entry, m, hjump⟩
    rw [bootmain_eq hd] at hjump
    split_ifs at hjump
    cases hjump
    rcases h with ⟨hdr, hhdr, hover⟩ | hrb
    · exact absurd hover (hno hdr hhdr)
    · exact ⟨rfl, (built_putAll_iff hd _).2 hrb⟩

/-! ### Two segments in one block, and in two -/

/-- A disk with an ELF file of two segments of 16 bytes. The first is at `0x100000` and starts
with `0xFF`; the second is at `pa`. -/
def twoSegments (offset pa : Word) : Disk := fun k =>
  let words : List Word :=
    [elfMagic, 0, 0, 0, 0x30002, 1, 0x100000, 52, 0, 0, 0x200034, 2, 0,
     1, 0x1000, 0x100000, 0x100000, 16, 16, 7, 512,
     1, offset, pa, pa, 16, 16, 7, 512]
  match words[(k - 512) / 4]? with
  | some w => (w >>> (8 * ((k - 512) % 4))).setWidth 8
  | none => if k = 512 + 0x1000 then 0xFF#8 else 0#8

/-- The second segment is in the block of the first one. -/
def sharedBlock : Disk := twoSegments 0x1220#32 0x100020#32

/-- The second segment is in the block behind the first one. -/
def ownBlocks : Disk := twoSegments 0x1200#32 0x100200#32

theorem segments_sharedBlock : segments sharedBlock =
    [⟨0x1000#32, 0x100000#32, 16#32, 16#32⟩, ⟨0x1220#32, 0x100020#32, 16#32, 16#32⟩] := by
  decide

theorem segments_ownBlocks : segments ownBlocks =
    [⟨0x1000#32, 0x100000#32, 16#32, 16#32⟩, ⟨0x1200#32, 0x100200#32, 16#32, 16#32⟩] := by
  decide

theorem bootable_of_two {s t : Proghdr} (hseg : segments disk = [s, t])
    (hmagic : imageValue (fileMemory disk) 0#32 4 = elfMagic)
    (hheaders : (phoff disk).toNat + 32 * phnum disk ≤ 4096) (hs : s.Proper) (ht : t.Proper)
    (hst : s.pPa.toNat + s.pMemsz.toNat ≤ t.pPa.toNat) : Bootable disk where
  magic := hmagic
  headers := hheaders
  proper := by simp [hseg, hs, ht]
  increasing := by
    rw [hseg, List.pairwise_pair, BitVec.le_def]
    omega
  disjoint := by
    rw [hseg, List.pairwise_pair]
    intro a ha
    unfold Proghdr.Holds at ha ⊢
    omega

theorem bootable_sharedBlock : Bootable sharedBlock :=
  bootable_of_two segments_sharedBlock (by decide) (by decide)
    ⟨by decide, by decide, by decide, by decide⟩ ⟨by decide, by decide, by decide, by decide⟩
    (by decide)

theorem bootable_ownBlocks : Bootable ownBlocks :=
  bootable_of_two segments_ownBlocks (by decide) (by decide)
    ⟨by decide, by decide, by decide, by decide⟩ ⟨by decide, by decide, by decide, by decide⟩
    (by decide)

theorem readsBack_ownBlocks : ReadsBack ownBlocks := by
  apply readsBack_of_apart
  rw [segments_ownBlocks, List.pairwise_pair]
  intro a ha hr
  simp [Proghdr.Holds, Proghdr.Reads] at ha hr
  omega

/-- The loader writes the second segment's sector over the first segment. -/
theorem bootmain_overwrites :
    Bootable sharedBlock ∧ ∃ fuel entry m,
      bootmain sharedBlock fuel (fun _ => 0#8) = some (.jump entry m) ∧
      m 0x100000#32 = 0#8 ∧ file sharedBlock 0x1000 = 0xFF#8 ∧ ¬Built sharedBlock m := by
  have hd := bootable_sharedBlock
  have hjump := bootmain_eq hd (fun _ => 0#8) 16
  rw [if_pos (by rw [segments_sharedBlock]; decide)] at hjump
  have hzero : Layer.putAll (imageLayers sharedBlock) (fun _ => 0#8) 0x100000#32 = 0#8 := by
    rw [imageLayers, segments_sharedBlock]
    decide
  have hff : file sharedBlock 0x1000 = 0xFF#8 := by decide
  refine ⟨hd, 16, _, _, hjump, hzero, hff, fun hb => ?_⟩
  have h0 := (hb ⟨0x1000#32, 0x100000#32, 16#32, 16#32⟩ (by simp [segments_sharedBlock])).1 0
    (by decide)
  have h1 : (0#8 : Byte) = 0xFF#8 := hzero.symm.trans (h0.trans hff)
  exact absurd h1 (by decide)

/-- With each segment in its own block both are in memory when the loader jumps. -/
theorem bootmain_builds_ownBlocks :
    Bootable ownBlocks ∧ ReadsBack ownBlocks ∧ ∃ fuel m,
      bootmain ownBlocks fuel (fun _ => 0#8) = some (.jump 0x100000#32 m) ∧ Built ownBlocks m ∧
      m 0x100000#32 = 0xFF#8 ∧ m 0x100200#32 = file ownBlocks 0x1200 := by
  have h := bootmain_builds_iff bootable_ownBlocks (fun _ => 0#8)
  obtain ⟨fuel, entry, m, hjump⟩ := h.1.2 (by rw [segments_ownBlocks]; decide)
  obtain ⟨rfl, hbuilt⟩ := h.2.2 (.inr readsBack_ownBlocks) fuel entry m hjump
  have hentry : imageValue (fileMemory ownBlocks) 24#32 4 = 0x100000#32 := by decide
  rw [hentry] at hjump
  have hfirst := (hbuilt ⟨0x1000#32, 0x100000#32, 16#32, 16#32⟩ (by simp [segments_ownBlocks])).1
    0 (by decide)
  have hsecond := (hbuilt ⟨0x1200#32, 0x100200#32, 16#32, 16#32⟩ (by simp [segments_ownBlocks])).1
    0 (by decide)
  exact ⟨bootable_ownBlocks, readsBack_ownBlocks, fuel, m, hjump, hbuilt, hfirst.trans (by decide),
    hsecond⟩

end Jos.BootMain
