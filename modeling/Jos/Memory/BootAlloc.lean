import Jos.Kern.Detect
import Jos.Memory.Layout
import Mathlib.Algebra.BigOperators.Group.List.Basic
import Mathlib.Data.Set.BooleanAlgebra
import Mathlib.Order.CompletePartialOrder
import Mathlib.Order.Interval.Set.Basic

/-!
# The boot allocator

`boot_alloc` moves `nextfree` up by each request, rounded to pages, and compares it with
nothing: out of memory it does not `panic`, and past the top of the address space it goes on at
the bottom. When `nextfree` comes out at 0 exactly it looks like a pointer that is not
initialised yet, and the next call starts again behind the kernel.

`BootSafe` is what a sequence of calls should satisfy: aligned and disjoint regions between the
end of the kernel and the end of memory, with `boot_alloc(0)` above all of them. The position
of the allocator without the wrapping is `bootTop`, and `bootAlloc_safe_iff` says that the calls
are safe exactly when each of them fits in the sense of `BootFits`.

The equivalence goes call by call (`bootCall_ok_iff`). As long as `bootTop` is an address, it is
the address that the next call returns (`bootPosition_of_lt`). Once it is none, the call that
has gone past the top was the last one that was safe: the next one starts below its end, and
what lies between the kernel and that end is all taken (`exists_region`).
-/

namespace Jos

/-- The bytes that a call sets aside. -/
def BootCall.region (c : BootCall) : Set ℕ :=
  Set.Ico c.result.toNat (c.result.toNat + c.n.toNat)

/-- What is expected of the call `c` after the calls `before`. -/
structure BootCallOk (npages : ℕ) (kernEnd : Word) (before : List BootCall) (c : BootCall) :
    Prop where
  aligned : c.result.toNat % 4096 = 0
  disjoint : ∀ b ∈ before, Disjoint b.region c.region
  above : c.n ≠ 0#32 → kernEnd ≤ c.result
  below : c.n ≠ 0#32 → c.result.toNat + c.n.toNat ≤ kernbase.toNat + npages * 4096
  /-- `boot_alloc(0)` returns the end of what is allocated, or something above it. -/
  top : c.n = 0#32 → ∀ b ∈ before, b.n ≠ 0#32 → b.result.toNat + b.n.toNat ≤ c.result.toNat

/-- The calls hand out disjoint regions of memory above the kernel. -/
def BootSafe (npages : ℕ) (kernEnd : Word) (calls : List BootCall) : Prop :=
  ∀ before c after, calls = before ++ c :: after → BootCallOk npages kernEnd before c

/-- The bytes of the pages that `n` bytes need. -/
def pageUp (n : ℕ) : ℕ := (n + 4095) / 4096 * 4096

/-- Where the allocator is after the requests `ns`, if nothing wraps. -/
def bootTop (kernEnd : Word) (ns : List Word) : ℕ :=
  pageUp kernEnd.toNat + (ns.map fun n => pageUp n.toNat).sum

/-- The request `n` after the requests `ns` fits: the allocator is at an address, and the region
ends in memory. A request for 0 bytes also fits when nothing has been allocated. -/
def BootCallFits (npages : ℕ) (kernEnd : Word) (ns : List Word) (n : Word) : Prop :=
  if n = 0#32 then bootTop kernEnd ns < 2 ^ 32 ∨ ∀ m ∈ ns, m = 0#32
  else bootTop kernEnd ns < 2 ^ 32 ∧
    bootTop kernEnd ns + n.toNat ≤ kernbase.toNat + npages * 4096

/-- Every request fits where it is made. -/
def BootFits (npages : ℕ) (kernEnd : Word) (ns : List Word) : Prop :=
  ∀ before n after, ns = before ++ n :: after → BootCallFits npages kernEnd before n

/-! ### Positions -/

section Position

variable {kernEnd : Word} {ns : List Word} {n : Word}

theorem pageUp_mod (n : ℕ) : pageUp n % 4096 = 0 := by
  unfold pageUp
  omega

theorem le_pageUp (n : ℕ) : n ≤ pageUp n := by
  unfold pageUp
  omega

theorem pageUp_zero : pageUp (0#32).toNat = 0 := by decide

theorem roundUp_pgsize_mod (a : Word) :
    (roundUp a pgsize).toNat = pageUp a.toNat % 2 ^ 32 := by
  have hsum : (a + pgsize - 1#32).toNat = (a.toNat + 4095) % 2 ^ 32 := by
    simp only [BitVec.toNat_sub, BitVec.toNat_add, pgsize, BitVec.toNat_ofNat]
    omega
  rw [roundUp, roundDown_pgsize, hsum, pageUp]
  omega

theorem bootTop_nil : bootTop kernEnd [] = pageUp kernEnd.toNat := by
  simp [bootTop]

theorem bootTop_snoc : bootTop kernEnd (ns ++ [n]) = bootTop kernEnd ns + pageUp n.toNat := by
  simp [bootTop, add_assoc]

theorem pageUp_le_bootTop (kernEnd : Word) (ns : List Word) :
    pageUp kernEnd.toNat ≤ bootTop kernEnd ns :=
  Nat.le_add_right _ _

theorem bootTop_mod (kernEnd : Word) (ns : List Word) : bootTop kernEnd ns % 4096 = 0 := by
  induction ns using List.reverseRecOn with
  | nil => rw [bootTop_nil, pageUp_mod]
  | append_singleton ns n ih =>
    have h := pageUp_mod n.toNat
    rw [bootTop_snoc]
    omega

theorem bootTop_of_zero (h : ∀ m ∈ ns, m = 0#32) : bootTop kernEnd ns = pageUp kernEnd.toNat := by
  induction ns using List.reverseRecOn with
  | nil => exact bootTop_nil
  | append_singleton ns n ih =>
    rw [bootTop_snoc, ih fun m hm => h m (List.mem_append_left _ hm), h n (by simp), pageUp_zero,
      add_zero]

/-- `nextfree` after one more call. -/
theorem bootAllocRun_snoc : bootAllocRun kernEnd (ns ++ [n]) =
    bootAllocStep kernEnd (bootAllocRun kernEnd ns) n := by
  rw [bootAllocRun, List.foldl_append]
  rfl

/-- What is returned does not depend on the request. -/
theorem bootAlloc_fst (kernEnd nextfree n : Word) :
    (bootAlloc kernEnd nextfree n).1 = (bootAlloc kernEnd nextfree 0#32).1 := by
  unfold bootAlloc
  by_cases hn : n = 0#32
  · rw [hn]
  · simp only [if_neg hn, if_true]

theorem bootAllocRun_calls : (bootAllocRun kernEnd (ns ++ [n])).2 =
    (bootAllocRun kernEnd ns).2 ++ [⟨n, bootPosition kernEnd ns⟩] := by
  rw [bootAllocRun_snoc, bootPosition, ← bootAlloc_fst kernEnd _ n]
  rfl

/-- A call for 0 bytes initialises `nextfree` and does nothing else. -/
theorem bootPosition_snoc_zero : bootPosition kernEnd (ns ++ [0#32]) = bootPosition kernEnd ns := by
  rw [bootPosition, bootAllocRun_snoc, bootAllocStep, bootPosition]
  unfold bootAlloc
  simp only [if_true]
  split
  · split <;> rfl
  · rfl

/-- A call for `n` bytes moves the position up by whole pages, modulo 2³²; a position that has
come out at 0 is taken for the start. -/
theorem bootPosition_snoc (hn : n ≠ 0#32) :
    bootPosition kernEnd (ns ++ [n]) =
      if roundUp (bootPosition kernEnd ns + n) pgsize = 0#32 then roundUp kernEnd pgsize
      else roundUp (bootPosition kernEnd ns + n) pgsize := by
  rw [bootPosition, bootAllocRun_snoc, bootAllocStep, bootPosition]
  unfold bootAlloc
  simp only [if_neg hn, if_true]

theorem bootPosition_nil : bootPosition kernEnd [] = roundUp kernEnd pgsize := rfl

/-- Every position is a multiple of the page size. -/
theorem bootPosition_mod (kernEnd : Word) (ns : List Word) :
    (bootPosition kernEnd ns).toNat % 4096 = 0 := by
  have hround (a : Word) : (roundUp a pgsize).toNat % 4096 = 0 := by
    have h := pageUp_mod a.toNat
    rw [roundUp_pgsize_mod]
    omega
  induction ns using List.reverseRecOn with
  | nil => exact hround kernEnd
  | append_singleton ns n ih =>
    by_cases hn : n = 0#32
    · rwa [hn, bootPosition_snoc_zero]
    · rw [bootPosition_snoc hn]
      split <;> exact hround _

/-- Moving up from a position that has not wrapped. -/
theorem roundUp_position (hpos : (bootPosition kernEnd ns).toNat = bootTop kernEnd ns) :
    (roundUp (bootPosition kernEnd ns + n) pgsize).toNat =
      (bootTop kernEnd ns + pageUp n.toNat) % 2 ^ 32 := by
  have hmod := bootTop_mod kernEnd ns
  have hlt := (bootPosition kernEnd ns).isLt
  rw [roundUp_pgsize_mod, BitVec.toNat_add, hpos, pageUp, pageUp]
  omega

/-- As long as the unbounded position is an address, it is the position. -/
theorem bootPosition_of_lt (h : bootTop kernEnd ns < 2 ^ 32) :
    (bootPosition kernEnd ns).toNat = bootTop kernEnd ns := by
  induction ns using List.reverseRecOn with
  | nil =>
    rw [bootTop_nil] at h ⊢
    rw [bootPosition_nil, roundUp_pgsize_mod, Nat.mod_eq_of_lt h]
  | append_singleton ns n ih =>
    rw [bootTop_snoc] at h ⊢
    have hpos := ih (by omega)
    by_cases hn : n = 0#32
    · subst hn
      rw [bootPosition_snoc_zero, hpos, pageUp_zero, add_zero]
    · -- the new position is not 0, because it is above a nonempty region
      have hle := le_pageUp n.toNat
      have hn' : n.toNat ≠ 0 := fun hc => hn (BitVec.eq_of_toNat_eq hc)
      have hnew := roundUp_position (n := n) hpos
      rw [Nat.mod_eq_of_lt h] at hnew
      rw [bootPosition_snoc hn, if_neg, hnew]
      intro hc
      rw [hc] at hnew
      simp only [BitVec.toNat_ofNat, Nat.zero_mod] at hnew
      omega

/-- Calls for 0 bytes leave the position at the start. -/
theorem bootPosition_of_zero (h : ∀ m ∈ ns, m = 0#32) :
    bootPosition kernEnd ns = roundUp kernEnd pgsize := by
  induction ns using List.reverseRecOn with
  | nil => rfl
  | append_singleton ns n ih =>
    rw [h n (by simp), bootPosition_snoc_zero]
    exact ih fun m hm => h m (List.mem_append_left _ hm)

end Position

/-! ### The calls so far -/

/-- A property of every element and what stands before it, one element at a time. -/
theorem forall_split_snoc {α : Type} {P : List α → α → Prop} {l : List α} {x : α} :
    (∀ before a after, l ++ [x] = before ++ a :: after → P before a) ↔
      (∀ before a after, l = before ++ a :: after → P before a) ∧ P l x := by
  constructor
  · intro h
    refine ⟨?_, h l x [] rfl⟩
    rintro before a after rfl
    exact h before a (after ++ [x]) (by simp)
  · rintro ⟨hl, hx⟩ before a after heq
    -- the element is the last one, or it stands in the rest
    rcases List.eq_nil_or_concat after with rfl | ⟨after, y, rfl⟩
    · obtain ⟨rfl, hxa⟩ := List.append_inj' heq rfl
      obtain rfl := List.singleton_inj.mp hxa
      exact hx
    · rw [List.concat_eq_append, ← List.cons_append, ← List.append_assoc] at heq
      exact hl before a after (List.append_inj' heq rfl).1

section Calls

variable {npages : ℕ} {kernEnd : Word} {ns : List Word} {n : Word} {b : BootCall}

theorem bootFits_snoc : BootFits npages kernEnd (ns ++ [n]) ↔
    BootFits npages kernEnd ns ∧ BootCallFits npages kernEnd ns n :=
  forall_split_snoc

theorem n_mem_of_mem_calls (hb : b ∈ (bootAllocRun kernEnd ns).2) : b.n ∈ ns := by
  induction ns using List.reverseRecOn with
  | nil => cases hb
  | append_singleton ns n ih =>
    rw [bootAllocRun_calls, List.mem_append, List.mem_singleton] at hb
    rcases hb with hb | rfl
    · exact List.mem_append_left _ (ih hb)
    · simp

theorem toNat_pos_of_ne (hn : n ≠ 0#32) : 0 < n.toNat :=
  Nat.pos_of_ne_zero fun hc => hn (BitVec.eq_of_toNat_eq hc)

/-- Regions end at the position of the allocator at the latest. -/
theorem BootFits.region_le (h : BootFits npages kernEnd ns)
    (hb : b ∈ (bootAllocRun kernEnd ns).2) (hn : b.n ≠ 0#32) :
    b.result.toNat + b.n.toNat ≤ bootTop kernEnd ns := by
  induction ns using List.reverseRecOn with
  | nil => cases hb
  | append_singleton ns n ih =>
    rw [bootFits_snoc] at h
    rw [bootAllocRun_calls, List.mem_append, List.mem_singleton] at hb
    rw [bootTop_snoc]
    rcases hb with hb | rfl
    · exact (ih h.1 hb).trans (Nat.le_add_right _ _)
    · -- the region of the last call begins at the position before it
      have hfit := h.2
      rw [BootCallFits, if_neg hn] at hfit
      have hle := le_pageUp n.toNat
      rw [bootPosition_of_lt hfit.1]
      exact Nat.add_le_add_left hle _

/-- Between the kernel and the position of the allocator every page is taken. -/
theorem BootFits.exists_region (h : BootFits npages kernEnd ns) {x : ℕ} (hx : x % 4096 = 0)
    (hge : pageUp kernEnd.toNat ≤ x) (hlt : x < bootTop kernEnd ns) :
    ∃ b ∈ (bootAllocRun kernEnd ns).2, x ∈ b.region := by
  induction ns using List.reverseRecOn with
  | nil =>
    rw [bootTop_nil] at hlt
    omega
  | append_singleton ns n ih =>
    rw [bootFits_snoc] at h
    rw [bootTop_snoc] at hlt
    rw [bootAllocRun_calls]
    by_cases hold : x < bootTop kernEnd ns
    · -- in a region of the calls before
      obtain ⟨b, hb, hmem⟩ := ih h.1 hold
      exact ⟨b, List.mem_append_left _ hb, hmem⟩
    · -- in the last region: a page of which a byte is left over is still used
      have hn : n ≠ 0#32 := by
        rintro rfl
        rw [pageUp_zero] at hlt
        omega
      have hfit := h.2
      rw [BootCallFits, if_neg hn] at hfit
      refine ⟨⟨n, bootPosition kernEnd ns⟩, by simp, ?_⟩
      have hmod := bootTop_mod kernEnd ns
      rw [BootCall.region, Set.mem_Ico, bootPosition_of_lt hfit.1]
      change bootTop kernEnd ns ≤ x ∧ x < bootTop kernEnd ns + n.toNat
      unfold pageUp at hlt
      omega

/-- A call that has gone past the top of the address space leaves the position at or below its
own region. -/
theorem BootFits.wrapped (h : BootFits npages kernEnd ns) (htop : 2 ^ 32 ≤ bootTop kernEnd ns)
    (hsome : ∃ m ∈ ns, m ≠ 0#32) :
    ∃ b ∈ (bootAllocRun kernEnd ns).2, b.n ≠ 0#32 ∧
      (bootPosition kernEnd ns).toNat ≤ b.result.toNat := by
  rcases List.eq_nil_or_concat ns with rfl | ⟨ns, m, rfl⟩
  · obtain ⟨m, hm, -⟩ := hsome
    cases hm
  rw [List.concat_eq_append] at *
  rw [bootFits_snoc] at h
  rw [bootTop_snoc] at htop
  have hfit := h.2
  by_cases hm : m = 0#32
  · -- no call was safe after the one that went past the top
    subst hm
    rw [BootCallFits, if_pos rfl] at hfit
    rw [pageUp_zero, add_zero] at htop
    rcases hfit with hlt | hzero
    · omega
    · obtain ⟨m, hmem, hne⟩ := hsome
      rw [List.mem_append, List.mem_singleton] at hmem
      exact absurd (hmem.elim (hzero m) id) hne
  · -- the last call is the one: the sum wraps once
    rw [BootCallFits, if_neg hm] at hfit
    have hpos := bootPosition_of_lt hfit.1
    refine ⟨⟨m, bootPosition kernEnd ns⟩, by rw [bootAllocRun_calls]; simp, hm, ?_⟩
    have hsize : pageUp m.toNat ≤ 2 ^ 32 := by
      have hlt := m.isLt
      unfold pageUp
      omega
    rw [bootPosition_snoc hm]
    split
    · -- 0 is taken for a null pointer
      have hbase := pageUp_le_bootTop kernEnd ns
      rw [roundUp_pgsize_mod, hpos, Nat.mod_eq_of_lt (hbase.trans_lt hfit.1)]
      exact hbase
    · rw [roundUp_position hpos, hpos]
      omega

end Calls

/-! ### One more call -/

section Step

variable {npages : ℕ} {kernEnd : Word} {ns : List Word} {n : Word}

theorem BootFits.ok_of_fits (h : BootFits npages kernEnd ns)
    (hfit : BootCallFits npages kernEnd ns n) :
    BootCallOk npages kernEnd (bootAllocRun kernEnd ns).2 ⟨n, bootPosition kernEnd ns⟩ := by
  have hbase := pageUp_le_bootTop kernEnd ns
  have hend := le_pageUp kernEnd.toNat
  by_cases hn : n = 0#32
  · -- a request for 0 bytes only has to return what is behind all regions
    subst hn
    rw [BootCallFits, if_pos rfl] at hfit
    refine ⟨bootPosition_mod kernEnd ns, ?_, fun hc => absurd rfl hc, fun hc => absurd rfl hc, ?_⟩
    · intro b _
      simp [BootCall.region]
    · intro _ b hb hbn
      rcases hfit with hlt | hzero
      · rw [bootPosition_of_lt hlt]
        exact h.region_le hb hbn
      · exact absurd (hzero _ (n_mem_of_mem_calls hb)) hbn
  · rw [BootCallFits, if_neg hn] at hfit
    have hpos := bootPosition_of_lt hfit.1
    refine ⟨bootPosition_mod kernEnd ns, ?_, ?_, ?_, fun hc => absurd hc hn⟩
    · intro b hb
      by_cases hbn : b.n = 0#32
      · simp [BootCall.region, hbn]
      · -- the old region ends where the new one begins
        have hle := h.region_le hb hbn
        rw [Set.disjoint_left]
        intro x hx hx'
        rw [BootCall.region, Set.mem_Ico] at hx hx'
        change (bootPosition kernEnd ns).toNat ≤ x ∧ _ at hx'
        omega
    · intro _
      rw [BitVec.le_def]
      change kernEnd.toNat ≤ (bootPosition kernEnd ns).toNat
      omega
    · intro _
      change (bootPosition kernEnd ns).toNat + n.toNat ≤ _
      rw [hpos]
      exact hfit.2

theorem BootFits.fits_of_ok (h : BootFits npages kernEnd ns)
    (hok : BootCallOk npages kernEnd (bootAllocRun kernEnd ns).2 ⟨n, bootPosition kernEnd ns⟩) :
    BootCallFits npages kernEnd ns n := by
  by_cases hlt : bootTop kernEnd ns < 2 ^ 32
  · -- the position is the one the bound is about
    rw [BootCallFits]
    split
    · exact Or.inl hlt
    · refine ⟨hlt, ?_⟩
      rw [← bootPosition_of_lt hlt]
      exact hok.below ‹_›
  by_cases hsome : ∃ m ∈ ns, m ≠ 0#32
  · -- the position has wrapped, to the region of the call that did it or below
    obtain ⟨b, hb, hbn, hle⟩ := h.wrapped (by omega) hsome
    have hpos := toNat_pos_of_ne hbn
    by_cases hn : n = 0#32
    · have htop := hok.top hn b hb hbn
      change b.result.toNat + b.n.toNat ≤ (bootPosition kernEnd ns).toNat at htop
      omega
    · -- the new region starts on a page that is taken
      have habove := BitVec.le_def.mp (hok.above hn)
      change kernEnd.toNat ≤ (bootPosition kernEnd ns).toNat at habove
      have hmod := bootPosition_mod kernEnd ns
      have hend := h.region_le hb hbn
      obtain ⟨b', hb', hmem⟩ := h.exists_region hmod (by unfold pageUp; omega) (by omega)
      have hself : (bootPosition kernEnd ns).toNat ∈
          (⟨n, bootPosition kernEnd ns⟩ : BootCall).region := by
        have hn' := toNat_pos_of_ne hn
        rw [BootCall.region, Set.mem_Ico]
        exact ⟨le_rfl, Nat.lt_add_of_pos_right hn'⟩
      exact absurd hself (Set.disjoint_left.mp (hok.disjoint b' hb') hmem)
  · push Not at hsome
    rw [BootCallFits]
    split
    · exact Or.inr hsome
    · -- the end of the kernel itself has been rounded to 0
      have habove := BitVec.le_def.mp (hok.above ‹_›)
      change kernEnd.toNat ≤ (bootPosition kernEnd ns).toNat at habove
      have hend := kernEnd.isLt
      rw [bootPosition_of_zero hsome, roundUp_pgsize_mod] at habove
      rw [bootTop_of_zero hsome] at hlt
      unfold pageUp at *
      omega

theorem BootFits.bootCall_ok_iff (h : BootFits npages kernEnd ns) :
    BootCallOk npages kernEnd (bootAllocRun kernEnd ns).2 ⟨n, bootPosition kernEnd ns⟩ ↔
      BootCallFits npages kernEnd ns n :=
  ⟨h.fits_of_ok, h.ok_of_fits⟩

end Step

/-! ### Sequences of calls -/

/-- A sequence of calls of `boot_alloc` hands out disjoint regions of memory above the kernel if
and only if every request fits: out of memory it does not `panic`. -/
theorem bootAlloc_safe_iff (npages : ℕ) (kernEnd : Word) (ns : List Word) :
    BootSafe npages kernEnd (bootAllocRun kernEnd ns).2 ↔ BootFits npages kernEnd ns := by
  induction ns using List.reverseRecOn with
  | nil =>
    constructor <;> intro _ before _ after heq <;> cases before <;> cases heq
  | append_singleton ns n ih =>
    rw [bootFits_snoc, bootAllocRun_calls, BootSafe, forall_split_snoc]
    refine and_congr_left' ih |>.trans ?_
    exact and_congr_right fun h => h.bootCall_ok_iff

/-- On a machine with 4 MB `boot_alloc` hands out 4 MB behind the kernel. -/
theorem bootAlloc_past_memory : ¬BootSafe 1024 0xF0110000#32
    (bootAllocRun 0xF0110000#32 [0x400000#32]).2 := by
  intro h
  have hok := h [] ⟨0x400000#32, 0xF0110000#32⟩ [] (by decide)
  exact absurd (hok.below (by decide)) (by decide)

end Jos
