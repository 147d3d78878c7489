import Jos.Kern.Loader
import Jos.Memory.Layout

/-!
# Where the actions of `load_icode` are

`LoadAction.Below` says that an action maps and writes nothing at or above `UTOP`. A write that
begins at or below `UTOP` and goes upwards does not get further than that anyway, because the array
`envs` is mapped for reading there; `LoadAction.Contained` leaves these writes in.

For a header that is read as the same one each time, its three actions are below `UTOP` exactly if
the segment ends there and has no more bytes in the file than in memory (`Proghdr.below_iff`).
-/

namespace Jos

/-! ### Addresses below `UTOP` -/

/-- Below `UTOP` the next byte is at the next address. -/
theorem toNat_succ_of_lt_utop {va : Word} (h : va < utop) :
    (va + 1#32).toNat = va.toNat + 1 := by
  have htop : utop.toNat < 2 ^ 32 - 1 := by decide
  rw [BitVec.lt_def] at h
  rw [BitVec.toNat_add, show BitVec.toNat 1#32 = 1 from rfl]
  omega

/-- And the next page has the next number. -/
theorem pgnum_succ_of_lt_utop {va : Word} (h : va < utop) :
    (va + pgsize).toNat = va.toNat + 4096 ∧ pgnum (va + pgsize) = pgnum va + 1 := by
  have htop : utop.toNat = 977920 * 4096 := by decide
  rw [BitVec.lt_def] at h
  have hnext : (va + pgsize).toNat = va.toNat + 4096 := by
    rw [BitVec.toNat_add, show pgsize.toNat = 4096 from rfl]
    omega
  rw [pgnum_eq, pgnum_eq, hnext]
  omega

/-- The pages of `region_alloc`. -/
theorem regionAlloc_pages {va len : Word} (h : va.toNat + len.toNat ≤ utop.toNat) :
    (roundDown va pgsize).toNat + regionPages va len * 4096 ≤ utop.toNat ∧
    pgnum (roundDown va pgsize) = va.toNat / 4096 ∧
    va.toNat / 4096 + regionPages va len = (va.toNat + len.toNat + 4095) / 4096 := by
  -- `UTOP` is the address of a page, so rounding up does not go past it
  have htop : utop.toNat = 977920 * 4096 := by decide
  have hsum : (va + len).toNat = va.toNat + len.toNat := by
    rw [BitVec.toNat_add]
    omega
  rw [regionPages, pgnum_eq, roundDown_pgsize, roundUp_pgsize (by omega), hsum]
  omega

/-- What the page tables say, below `KERNBASE`. -/
theorem kernelAccess_eq_some {σ : State} {d f : ℕ} {va : Word} {w : Bool} (hva : va < kernbase) :
    kernelAccess σ d va = some (f, w) ↔
      ∃ π₁ π₂, x86Walk σ d (pdx va) (ptx va) = some (π₁, π₂, f) ∧
        w = (π₁.getLsbD 1 && π₂.getLsbD 1) := by
  unfold kernelAccess
  rw [BitVec.lt_def] at hva
  cases hwalk : x86Walk σ d (pdx va) (ptx va) with
  | none =>
    -- below `KERNBASE` there is nothing where nothing is mapped
    rw [if_neg (by rw [BitVec.le_def]; omega)]
    simp
  | some r =>
    obtain ⟨π₁, π₂, p⟩ := r
    simp only [Option.some.injEq, Prod.mk.injEq]
    constructor
    · rintro ⟨rfl, rfl⟩
      exact ⟨π₁, π₂, ⟨rfl, rfl, rfl⟩, rfl⟩
    · rintro ⟨_, _, ⟨rfl, rfl, rfl⟩, rfl⟩
      exact ⟨rfl, rfl⟩

theorem lt_kernbase_of_lt_utop {va : Word} (h : va < utop) : va < kernbase :=
  BitVec.lt_trans h (by decide)

/-! ### Actions -/

namespace LoadAction

/-- The action maps and writes nothing at or above `UTOP`. -/
def Below : LoadAction → Prop
  | .region va len => regionPages va len ≠ 0 →
      (roundDown va pgsize).toNat + regionPages va len * 4096 ≤ utop.toNat
  | .copy dst _ n => n ≠ 0#32 → dst.toNat + n.toNat ≤ utop.toNat
  | .clear dst n => n ≠ 0#32 → dst.toNat + n.toNat ≤ utop.toNat

instance : (a : LoadAction) → Decidable a.Below
  | .region _ _ => inferInstanceAs (Decidable (_ → _))
  | .copy _ _ _ => inferInstanceAs (Decidable (_ → _))
  | .clear _ _ => inferInstanceAs (Decidable (_ → _))

/-- The action is below `UTOP`, or it writes upwards from `UTOP` or from below. -/
def Contained : LoadAction → Prop
  | .region va len => (region va len).Below
  | .copy dst src n => n ≠ 0#32 →
      dst.toNat + n.toNat ≤ utop.toNat ∨ dst ≤ utop ∧ ¬Overlaps dst src n
  | .clear dst n => n ≠ 0#32 → dst ≤ utop

theorem Below.contained {a : LoadAction} (h : a.Below) : a.Contained := by
  cases a with
  | region va len => exact h
  | copy dst src n => exact fun hn => .inl (h hn)
  | clear dst n => exact fun hn => BitVec.le_def.mpr ((Nat.le_add_right _ _).trans (h hn))

end LoadAction

/-! ### Headers -/

/-- A `struct Proghdr`, with the fields `load_icode` looks at. -/
structure Proghdr where
  pType : Word
  pOffset : Word
  pVa : Word
  pFilesz : Word
  pMemsz : Word
deriving DecidableEq, Repr

namespace Proghdr

/-- `load_icode` does something for this header: it maps a page or writes a byte. -/
def Acts (ph : Proghdr) : Prop :=
  ph.pType = elfProgLoad ∧
    (regionPages ph.pVa ph.pMemsz ≠ 0 ∨ ph.pFilesz ≠ 0#32 ∨ ph.pMemsz ≠ 0#32)

instance (ph : Proghdr) : Decidable ph.Acts := inferInstanceAs (Decidable (_ ∧ _))

/-- The segment ends at or below `UTOP`. -/
def Fits (ph : Proghdr) : Prop := ph.pVa.toNat + ph.pMemsz.toNat ≤ utop.toNat

instance (ph : Proghdr) : Decidable ph.Fits := inferInstanceAs (Decidable (_ ≤ _))

/-- What is done for a header, if it is read as the same one each time. -/
def actions (binary : Word) (ph : Proghdr) : List LoadAction :=
  if ph.pType = elfProgLoad then
    [.region ph.pVa ph.pMemsz, .copy ph.pVa (binary + ph.pOffset) ph.pFilesz,
      .clear (ph.pVa + ph.pFilesz) (ph.pMemsz - ph.pFilesz)]
  else []

/-- The file part of a segment, and the rest of it. -/
theorem parts_toNat {ph : Proghdr} (hend : ph.pVa.toNat + ph.pMemsz.toNat ≤ utop.toNat)
    (hle : ph.pFilesz ≤ ph.pMemsz) :
    (ph.pVa + ph.pFilesz).toNat = ph.pVa.toNat + ph.pFilesz.toNat ∧
      (ph.pMemsz - ph.pFilesz).toNat = ph.pMemsz.toNat - ph.pFilesz.toNat ∧
      ph.pFilesz.toNat ≤ ph.pMemsz.toNat := by
  have htop : utop.toNat = 977920 * 4096 := by decide
  -- neither the sum nor the difference wraps
  refine ⟨?_, BitVec.toNat_sub_of_le hle, BitVec.le_def.mp hle⟩
  rw [BitVec.le_def] at hle
  rw [BitVec.toNat_add]
  omega

theorem ne_zero_iff {x : Word} : x ≠ 0#32 ↔ x.toNat ≠ 0 := by
  rw [← BitVec.toNat_ne_iff_ne]
  rfl

/-- The actions for a header that is in order. -/
theorem below_of_fits {binary : Word} {ph : Proghdr} (hfits : ph.Fits)
    (hle : ph.pFilesz ≤ ph.pMemsz) : ∀ a ∈ ph.actions binary, a.Below := by
  obtain ⟨hfile, hrest, hsize⟩ := parts_toNat hfits hle
  unfold Fits at hfits
  unfold actions
  split
  · -- one condition for each of the three actions
    simp only [List.mem_cons, List.not_mem_nil, or_false, forall_eq_or_imp, forall_eq]
    refine ⟨fun _ => (regionAlloc_pages hfits).1, fun _ => by omega, fun _ => ?_⟩
    rw [hfile, hrest]
    omega
  · exact fun a ha => absurd ha List.not_mem_nil

/-- A header that acts only below `UTOP` ends there, and `memset` is not given a length of nearly
4 GB: the file part is not the longer one. -/
theorem fits_of_below {binary : Word} {ph : Proghdr} (h : ∀ a ∈ ph.actions binary, a.Below)
    (hacts : ph.Acts) : ph.Fits ∧ ph.pFilesz ≤ ph.pMemsz := by
  have htop : utop.toNat = 977920 * 4096 := by decide
  obtain ⟨htype, hsome⟩ := hacts
  rw [actions, if_pos htype] at h
  simp only [List.mem_cons, List.not_mem_nil, or_false, forall_eq_or_imp, forall_eq] at h
  obtain ⟨hregion, hcopy, hclear⟩ := h
  simp only [LoadAction.Below, ne_zero_iff] at hregion hcopy hclear
  -- the length of `memset` as the code computes it, modulo `2 ^ 32`
  rw [BitVec.toNat_sub, BitVec.toNat_add] at hclear
  have hfilesz := ph.pFilesz.isLt
  have hmemsz := ph.pMemsz.isLt
  have hva := ph.pVa.isLt
  rw [ne_zero_iff, ne_zero_iff] at hsome
  rw [Fits, BitVec.le_def]
  by_cases hfile : ph.pFilesz.toNat = 0
  · -- all of it is cleared, or there is an empty page
    by_cases hmem : ph.pMemsz.toNat = 0
    · have hpages : regionPages ph.pVa ph.pMemsz ≠ 0 := by omega
      have hend := hregion hpages
      rw [roundDown_pgsize] at hend
      omega
    · have hend := hclear (by omega)
      omega
  · -- `memcpy` has something to copy, and the rest is cleared behind it
    have hend := hcopy hfile
    by_cases hrest : ph.pFilesz.toNat = ph.pMemsz.toNat
    · omega
    · have hend' := hclear (by omega)
      omega

/-- For a header that is read as the same one each time. -/
theorem below_iff {binary : Word} {ph : Proghdr} :
    (∀ a ∈ ph.actions binary, a.Below) ↔ (ph.Acts → ph.Fits ∧ ph.pFilesz ≤ ph.pMemsz) := by
  refine ⟨fits_of_below, fun h => ?_⟩
  by_cases hacts : ph.Acts
  · exact below_of_fits (h hacts).1 (h hacts).2
  · -- it does nothing at all
    intro a ha
    unfold actions at ha
    split at ha
    · next htype =>
      simp only [Acts, htype, true_and, ne_eq, not_or, not_not] at hacts
      obtain ⟨hpages, hfile, hmem⟩ := hacts
      rw [hfile, hmem] at ha
      simp only [List.mem_cons, List.not_mem_nil, or_false] at ha
      obtain rfl | rfl | rfl := ha
      · exact fun hc => absurd (hmem ▸ hpages) hc
      · exact fun hc => absurd rfl hc
      · exact fun hc => absurd rfl hc
    · exact absurd ha List.not_mem_nil

end Proghdr

/-- No header of the program is malformed, but for those that make no difference. -/
def NoneMalformed (l : List Proghdr) : Prop :=
  ∀ ph ∈ l, ph.Acts → ph.Fits ∧ ph.pFilesz ≤ ph.pMemsz

/-- The headers of a program that are each read as the same one. -/
theorem noneMalformed_iff {binary : Word} {l : List Proghdr} :
    (∀ a ∈ l.flatMap (Proghdr.actions binary), a.Below) ↔ NoneMalformed l := by
  constructor
  · intro h ph hph
    exact Proghdr.below_iff.mp fun a ha => h a (List.mem_flatMap.mpr ⟨ph, hph, ha⟩)
  · intro h a ha
    obtain ⟨ph, hph, ha⟩ := List.mem_flatMap.mp ha
    exact Proghdr.below_iff.mpr (h ph hph) a ha

end Jos
