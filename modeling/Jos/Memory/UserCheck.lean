import Jos.Environment.Frame
import Jos.Memory.MemRun

/-!
# `user_mem_check`

When `user_mem_check` returns 0, the kernel goes on to touch the bytes
`va, va+1, ..., va+len-1`, with addresses that wrap at 32 bits. It is sound when
each of them is a byte the user may access (`Sound`).

The loop checks the pages from `ROUNDDOWN(va)` up to `ROUNDUP(va + len)`, and both
the sum and the rounding wrap. As long as they do not, every page of the range is
checked. When they do, the end comes out at most one page above the start: the
loop looks at no page, or at the page of `va` alone, although the range then
reaches the last page of the address space, which is the kernel's. So a wrapped
range is refused only when the page of `va` is looked at and is itself
inaccessible: `userMemCheck_sound_iff`. When `va` is in the last page itself the end
wraps twice, and nothing is looked at.

On a range that does not wrap the check is exact: it accepts the range if and only if every
byte is accessible, and otherwise `user_mem_check_addr` is the first byte that is not
(`userMemCheck_exact`). The loop stops at the first page it refuses (`userMemCheckLoop_spec`);
the first byte of that page is the answer unless it is the page of `va`, of which only `va` and
what follows it is in the range.
-/

namespace Jos

variable {B : Boot} {σ σ' : State} {pgdir va : Word}

/-- The address is below `ULIM` and its page has an entry with all the bits of
`perm`. -/
def PageOk (B : Boot) (σ : State) (pgdir perm va : Word) : Prop :=
  va < ulim ∧ ∃ pte, pgdirWalk B pgdir va false σ = .ok (some pte, σ) ∧ σ.load pte &&& perm = perm

/-- If `user_mem_check` accepts the range, the user may access every byte of it. -/
def Sound (B : Boot) (e : Fin nenv) (va len perm : Word) (σ : State) : Prop :=
  ∀ σ', userMemCheck B e va len perm σ = .ok (0, σ') → ∀ i < len.toNat,
    PageOk B σ (σ.envs e).envPgdir (perm ||| pteP) (va + BitVec.ofNat 32 i)

/-! ### The loop -/

/-- The loop returns 0 when every page it looks at is accessible. -/
theorem userMemCheckLoop_zero_iff (checkVa perm : Word) (n : ℕ) (begin : Word) :
    userMemCheckLoop B pgdir checkVa perm n begin σ = .ok (0, σ') ↔
      σ' = σ ∧ ∀ k < n, PageOk B σ pgdir perm (begin + BitVec.ofNat 32 (k * 4096)) := by
  induction n generalizing begin with
  | zero =>
    rw [userMemCheckLoop, Except.ok.injEq, Prod.mk.injEq]
    constructor
    · exact fun h => ⟨h.2.symm, fun k hk => absurd hk (Nat.not_lt_zero k)⟩
    · exact fun h => ⟨rfl, h.1.symm⟩
  | succ n ih =>
    rw [userMemCheckLoop, bind_eq_ok, forall_page_succ]
    constructor
    · -- a walk without `create` changes nothing, so the rest runs in the same state
      rintro ⟨⟨pte, σ₁⟩, hwalk, hrest⟩
      obtain rfl := pgdirWalk_false hwalk
      cases pte with
      | none =>
        simp only [or_true, if_true] at hrest
        cases hrest
      | some pte =>
        simp only [decide_eq_true_eq] at hrest
        by_cases hbad : ulim ≤ begin ∨ σ₁.load pte &&& perm ≠ perm
        · rw [if_pos hbad] at hrest
          cases hrest
        · rw [if_neg hbad] at hrest
          obtain ⟨hlt, hperm⟩ := not_or.mp hbad
          obtain ⟨rfl, hall⟩ := (ih (begin + pgsize)).mp hrest
          exact ⟨rfl, ⟨BitVec.not_le.mp hlt, pte, hwalk, not_not.mp hperm⟩, hall⟩
    · rintro ⟨rfl, ⟨hlt, pte, hwalk, hperm⟩, hall⟩
      refine ⟨(some pte, σ'), hwalk, ?_⟩
      have hgood : ¬(ulim ≤ begin ∨ σ'.load pte &&& perm ≠ perm) :=
        not_or.mpr ⟨BitVec.not_le.mpr hlt, not_not.mpr hperm⟩
      simp only [decide_eq_true_eq]
      rw [if_neg hgood]
      exact (ih (begin + pgsize)).mpr ⟨rfl, hall⟩

/-- The loop returns 0 or `-E_FAULT`. -/
theorem userMemCheckLoop_nonneg {checkVa perm : Word} {n : ℕ} {begin : Word} {r : ℤ}
    (h : userMemCheckLoop B pgdir checkVa perm n begin σ = .ok (r, σ')) (hr : 0 ≤ r) : r = 0 := by
  induction n generalizing begin σ with
  | zero =>
    cases h
    rfl
  | succ n ih =>
    rw [userMemCheckLoop, bind_eq_ok] at h
    obtain ⟨⟨pte, σ₁⟩, -, hrest⟩ := h
    rcases ite_eq_iff.mp hrest with ⟨-, hret⟩ | ⟨-, hrest⟩
    · cases hret
      exact absurd hr (by decide)
    · exact ih hrest

/-! ### Bytes and pages -/

/-- Whether a byte is accessible depends on its page. -/
theorem pageOk_congr {perm a a' : Word} (h : pgnum a = pgnum a') :
    PageOk B σ pgdir perm a ↔ PageOk B σ pgdir perm a' := by
  obtain ⟨hpdx, hptx⟩ := pgnum_eq_iff.mp h
  have hulim : a < ulim ↔ a' < ulim := by
    rw [pgnum_eq, pgnum_eq] at h
    rw [BitVec.lt_def, BitVec.lt_def, show ulim.toNat = 980992 * 4096 by decide]
    omega
  have hwalk : pgdirWalk B pgdir a false σ = pgdirWalk B pgdir a' false σ := by
    simp only [pgdirWalk, walkTable, hpdx, hptx]
  rw [PageOk, PageOk, hulim, hwalk]

/-- No byte of the last page is accessible. -/
theorem not_pageOk_last {perm a : Word} (h : 0xFFFFF000 ≤ a.toNat) :
    ¬PageOk B σ pgdir perm a := by
  rintro ⟨hlt, -⟩
  rw [BitVec.lt_def, show ulim.toNat = 980992 * 4096 by decide] at hlt
  omega

/-! ### The bounds -/

/-- The number of pages the loop looks at. -/
def pagesChecked (va len : Word) : ℕ :=
  ((roundUp (va + len) pgsize).toNat - (roundDown va pgsize).toNat) / 4096

theorem roundUp_add_toNat (va len : Word) :
    (roundUp (va + len) pgsize).toNat =
      (va.toNat + len.toNat + 4095) % 2 ^ 32 / 4096 * 4096 := by
  have hsum : (va + len + pgsize - 1#32).toNat = (va.toNat + len.toNat + 4095) % 2 ^ 32 := by
    simp only [BitVec.toNat_sub, BitVec.toNat_add, pgsize, BitVec.toNat_ofNat]
    omega
  rw [roundUp, roundDown_pgsize, hsum]

/-- The check accepts exactly when the pages it looks at are accessible. -/
theorem userMemCheck_zero_iff (e : Fin nenv) (va len perm : Word) :
    userMemCheck B e va len perm σ = .ok (0, σ') ↔
      σ' = σ ∧ ∀ k < pagesChecked va len, PageOk B σ (σ.envs e).envPgdir (perm ||| pteP)
        (roundDown va pgsize + BitVec.ofNat 32 (k * 4096)) :=
  userMemCheckLoop_zero_iff va (perm ||| pteP) _ _

/-- A check that does not fail changes nothing. -/
theorem userMemCheck_nonneg {e : Fin nenv} {len perm : Word} {r : ℤ}
    (h : userMemCheck B e va len perm σ = .ok (r, σ')) (hr : 0 ≤ r) : r = 0 ∧ σ' = σ := by
  obtain rfl := userMemCheckLoop_nonneg h hr
  exact ⟨rfl, ((userMemCheck_zero_iff e va len perm).mp h).1⟩

section Range

variable {len : Word}

/-- A range that does not wrap is checked page by page. -/
theorem exists_page_of_byte (h : va.toNat + len.toNat + 4095 < 2 ^ 32) {i : ℕ}
    (hi : i < len.toNat) : ∃ k < pagesChecked va len,
      pgnum (va + BitVec.ofNat 32 i) =
        pgnum (roundDown va pgsize + BitVec.ofNat 32 (k * 4096)) := by
  have hend := roundUp_add_toNat va len
  have hbegin := roundDown_pgsize va
  rw [Nat.mod_eq_of_lt h] at hend
  refine ⟨(va.toNat + i) / 4096 - va.toNat / 4096, ?_, ?_⟩
  · rw [pagesChecked, hend, hbegin]
    omega
  · rw [pgnum_add_ofNat (by omega), pgnum_add_ofNat (by omega), hbegin]
    omega

/-- A range that wraps has a byte in the last page. -/
theorem exists_last_byte (h : 2 ^ 32 ≤ va.toNat + len.toNat + 4095) (hlen : 0 < len.toNat) :
    ∃ i < len.toNat, 0xFFFFF000 ≤ (va + BitVec.ofNat 32 i).toNat := by
  have hva := va.isLt
  have hll := len.isLt
  -- it is the last byte of the range, or the last one of the address space
  by_cases hw : va.toNat + len.toNat ≤ 2 ^ 32
  · refine ⟨len.toNat - 1, by omega, ?_⟩
    rw [BitVec.toNat_add, BitVec.toNat_ofNat]
    omega
  · refine ⟨2 ^ 32 - 1 - va.toNat, by omega, ?_⟩
    rw [BitVec.toNat_add, BitVec.toNat_ofNat]
    omega

/-- For a range that wraps the loop looks at the page of `va` or at nothing. -/
theorem pagesChecked_wrapped (h : 2 ^ 32 ≤ va.toNat + len.toNat + 4095) :
    pagesChecked va len =
      if va.toNat < 0xFFFFF000 ∧ 2 ^ 32 + (roundDown va pgsize).toNat < va.toNat + len.toNat
      then 1 else 0 := by
  have hva := va.isLt
  have hll := len.isLt
  rw [pagesChecked, roundUp_add_toNat, roundDown_pgsize]
  split <;> omega

end Range

/-! ### Soundness -/

/-- `user_mem_check` is sound on a range exactly when the rounded end does not wrap,
or it wraps just so far that the page of `va` is still looked at, and that page is
inaccessible. -/
theorem userMemCheck_sound_iff (B : Boot) (e : Fin nenv) (va len perm : Word) (σ : State)
    (hlen : 0#32 < len) :
    Sound B e va len perm σ ↔
      va.toNat + len.toNat + 4095 < 2 ^ 32 ∨
      (va.toNat < 0xFFFFF000 ∧ 2 ^ 32 + (roundDown va pgsize).toNat < va.toNat + len.toNat) ∧
        ¬PageOk B σ (σ.envs e).envPgdir (perm ||| pteP) va := by
  have hpos : 0 < len.toNat := hlen
  by_cases hw : va.toNat + len.toNat + 4095 < 2 ^ 32
  · -- every byte lies in a page that was looked at
    refine iff_of_true ?_ (Or.inl hw)
    intro σ' hok i hi
    obtain ⟨-, hall⟩ := (userMemCheck_zero_iff e va len perm).mp hok
    obtain ⟨k, hk, hpage⟩ := exists_page_of_byte hw hi
    exact (pageOk_congr hpage).mpr (hall k hk)
  · -- the range has a byte of the kernel, so it is sound only to refuse it
    rw [or_iff_right hw]
    have hwrap : 2 ^ 32 ≤ va.toNat + len.toNat + 4095 := by omega
    have hrefuse : Sound B e va len perm σ ↔
        ∀ σ', userMemCheck B e va len perm σ ≠ .ok (0, σ') := by
      obtain ⟨i, hi, hlast⟩ := exists_last_byte hwrap hpos
      exact ⟨fun hs σ' hok => not_pageOk_last hlast (hs σ' hok i hi),
        fun hno σ' hok => absurd hok (hno σ')⟩
    have hpage : PageOk B σ (σ.envs e).envPgdir (perm ||| pteP) va ↔
        PageOk B σ (σ.envs e).envPgdir (perm ||| pteP)
          (roundDown va pgsize + BitVec.ofNat 32 (0 * 4096)) := by
      apply pageOk_congr
      rw [page_zero, pgnum_eq, pgnum_eq, roundDown_pgsize]
      omega
    rw [hrefuse]
    simp only [Ne, userMemCheck_zero_iff, pagesChecked_wrapped hwrap]
    split
    · -- the page of `va` alone decides
      next hfar =>
      rw [and_iff_right hfar, hpage]
      constructor
      · intro hno hok
        exact hno σ ⟨rfl, fun k hk => by
          obtain rfl : k = 0 := by omega
          exact hok⟩
      · rintro hbad σ' ⟨-, hall⟩
        exact hbad (hall 0 (by omega))
    · -- nothing is looked at, so the range is accepted
      next hnear =>
      refine iff_of_false (fun hno => hno σ ⟨rfl, ?_⟩) fun hc => hnear hc.1
      intro k hk
      exact absurd hk (Nat.not_lt_zero k)

theorem userMemCheck_sound_small : Sound smallMachine 0 0x800000#32 0x2000#32 pteU smallMemory :=
  (userMemCheck_sound_iff smallMachine 0 0x800000#32 0x2000#32 pteU smallMemory (by decide)).mpr
    (Or.inl (by decide))

/-- The range from `KERNBASE` to the top of the address space is accepted: its end
rounds to 0. -/
theorem userMemCheck_accepts_kernel :
    userMemCheck smallMachine 0 kernbase 0x10000000#32 pteU smallMemory = .ok (0, smallMemory) ∧
      ¬PageOk smallMachine smallMemory (smallMemory.envs 0).envPgdir (pteU ||| pteP)
        (kernbase + BitVec.ofNat 32 0) ∧
      ¬Sound smallMachine 0 kernbase 0x10000000#32 pteU smallMemory := by
  have hacc : userMemCheck smallMachine 0 kernbase 0x10000000#32 pteU smallMemory =
      .ok (0, smallMemory) := by
    rw [userMemCheck_zero_iff]
    refine ⟨rfl, fun k hk => absurd hk ?_⟩
    rw [show pagesChecked kernbase 0x10000000#32 = 0 by decide]
    exact Nat.not_lt_zero k
  have hbad : ¬PageOk smallMachine smallMemory (smallMemory.envs 0).envPgdir (pteU ||| pteP)
      (kernbase + BitVec.ofNat 32 0) :=
    fun hok => absurd hok.1 (by decide)
  exact ⟨hacc, hbad, fun hs => hbad (hs smallMemory hacc 0 (by decide))⟩

/-! ### The first bad address -/

/-- The page tables of a directory are in memory, so that `KADDR` accepts them. -/
def TablesInMemory (B : Boot) (σ : State) (pgdir : Word) : Prop :=
  ∀ i t π, entryOf (σ.mem (frameAt pgdir) i) = some (t, π) → t < B.npages

/-- A walk without `create` returns and changes nothing. -/
theorem TablesInMemory.walk (h : TablesInMemory B σ pgdir) (va : Word) :
    ∃ pte, pgdirWalk B pgdir va false σ = .ok (pte, σ) := by
  cases ht : entryOf (σ.mem (frameAt pgdir) (pdx va)) with
  | none => exact ⟨none, pgdirWalk_absent ht⟩
  | some u =>
    obtain ⟨kva, hwalk, -⟩ := pgdirWalk_of_entry ht (h _ _ _ ht) false
    exact ⟨_, hwalk⟩

/-- The state in which `user_mem_check` has refused the page at `a`. -/
def faultAt (σ : State) (va a : Word) : State :=
  { σ with userMemCheckAddr := if va ≤ a then a else va }

/-- One round of the loop: the page is refused, or the loop goes on behind it. -/
theorem userMemCheckLoop_succ (h : TablesInMemory B σ pgdir) (checkVa perm : Word) (n : ℕ)
    (begin : Word) :
    (¬PageOk B σ pgdir perm begin ∧ userMemCheckLoop B pgdir checkVa perm (n + 1) begin σ =
      .ok (-eFault, faultAt σ checkVa begin)) ∨
    (PageOk B σ pgdir perm begin ∧ userMemCheckLoop B pgdir checkVa perm (n + 1) begin σ =
      userMemCheckLoop B pgdir checkVa perm n (begin + pgsize) σ) := by
  obtain ⟨pte, hwalk⟩ := h.walk begin
  rw [userMemCheckLoop, hwalk, ok_bind]
  cases pte with
  | none =>
    -- there is no page table
    refine Or.inl ⟨?_, by simp only [or_true, if_true]; rfl⟩
    rintro ⟨-, pte, hwalk', -⟩
    rw [hwalk] at hwalk'
    cases hwalk'
  | some pte =>
    simp only [decide_eq_true_eq]
    by_cases hbad : ulim ≤ begin ∨ σ.load pte &&& perm ≠ perm
    · refine Or.inl ⟨?_, by rw [if_pos hbad]; rfl⟩
      rintro ⟨hlt, pte', hwalk', hperm⟩
      obtain ⟨hpte, -⟩ := ok_unique_pair hwalk hwalk'
      obtain rfl := Option.some.inj hpte
      rcases hbad with hge | hno
      · exact BitVec.not_le.mpr hlt hge
      · exact hno hperm
    · obtain ⟨hlt, hperm⟩ := not_or.mp hbad
      exact Or.inr ⟨⟨BitVec.not_le.mp hlt, pte, hwalk, not_not.mp hperm⟩, if_neg hbad⟩

/-- The loop accepts all its pages, or it stops at the first one it does not. -/
theorem userMemCheckLoop_spec (h : TablesInMemory B σ pgdir) (checkVa perm : Word) (n : ℕ)
    (begin : Word) :
    (userMemCheckLoop B pgdir checkVa perm n begin σ = .ok (0, σ) ∧
      ∀ k < n, PageOk B σ pgdir perm (begin + BitVec.ofNat 32 (k * 4096))) ∨
    ∃ k < n, userMemCheckLoop B pgdir checkVa perm n begin σ =
        .ok (-eFault, faultAt σ checkVa (begin + BitVec.ofNat 32 (k * 4096))) ∧
      (∀ j < k, PageOk B σ pgdir perm (begin + BitVec.ofNat 32 (j * 4096))) ∧
      ¬PageOk B σ pgdir perm (begin + BitVec.ofNat 32 (k * 4096)) := by
  induction n generalizing begin with
  | zero => exact Or.inl ⟨rfl, fun k hk => absurd hk (Nat.not_lt_zero k)⟩
  | succ n ih =>
    obtain ⟨hbad, hrun⟩ | ⟨hok, hrun⟩ := userMemCheckLoop_succ h checkVa perm n begin
    · -- the loop stops here
      refine Or.inr ⟨0, by omega, ?_, fun j hj => absurd hj (Nat.not_lt_zero j), ?_⟩
      · rw [hrun, page_zero]
      · rwa [page_zero]
    · -- it goes on, and page `k` of the rest is page `k + 1`
      rw [hrun]
      obtain ⟨hzero, hall⟩ | ⟨k, hk, hfault, hbefore, hbad⟩ := ih (begin + pgsize)
      · exact Or.inl ⟨hzero, forall_page_succ.mpr ⟨hok, hall⟩⟩
      · rw [page_succ] at hfault hbad
        exact Or.inr ⟨k + 1, by omega, hfault, forall_page_succ.mpr ⟨hok, hbefore⟩, hbad⟩

section Exact

variable {len : Word}

/-- The page with number `k` of the loop. -/
theorem checkedPage_toNat (h : va.toNat + len.toNat + 4095 < 2 ^ 32) {k : ℕ}
    (hk : k < pagesChecked va len) :
    (roundDown va pgsize + BitVec.ofNat 32 (k * 4096)).toNat =
        va.toNat / 4096 * 4096 + k * 4096 ∧
      va.toNat / 4096 * 4096 + k * 4096 < va.toNat + len.toNat := by
  rw [pagesChecked, roundUp_add_toNat, roundDown_pgsize] at hk
  rw [BitVec.toNat_add, roundDown_pgsize, BitVec.toNat_ofNat]
  omega

/-- Every address of the range is on one of the pages. -/
theorem InRange.page (h : va.toNat + len.toNat + 4095 < 2 ^ 32) {a : Word}
    (ha : InRange va len a) :
    a.toNat / 4096 - va.toNat / 4096 < pagesChecked va len ∧
      pgnum a = pgnum (roundDown va pgsize +
        BitVec.ofNat 32 ((a.toNat / 4096 - va.toNat / 4096) * 4096)) := by
  obtain ⟨hle, hlt⟩ := ha
  rw [BitVec.le_def] at hle
  have hk : a.toNat / 4096 - va.toNat / 4096 < pagesChecked va len := by
    rw [pagesChecked, roundUp_add_toNat, roundDown_pgsize]
    omega
  refine ⟨hk, ?_⟩
  rw [pgnum_eq, pgnum_eq, (checkedPage_toNat h hk).1]
  omega

/-- The address that is reported for the page `k` is the first one of the range on it. -/
theorem faultAt_addr (h : va.toNat + len.toNat + 4095 < 2 ^ 32) {k : ℕ}
    (hk : k < pagesChecked va len) :
    (faultAt σ va (roundDown va pgsize + BitVec.ofNat 32 (k * 4096))).userMemCheckAddr.toNat =
      max va.toNat (va.toNat / 4096 * 4096 + k * 4096) := by
  have hpage := (checkedPage_toNat h hk).1
  rw [faultAt]
  split
  · -- the page is behind that of `va`, or `va` is its first byte
    next hle =>
    rw [BitVec.le_def, hpage] at hle
    change (roundDown va pgsize + BitVec.ofNat 32 (k * 4096)).toNat = _
    rw [hpage]
    omega
  · -- it is the page of `va`, which begins before the range
    next hgt =>
    rw [BitVec.le_def, hpage] at hgt
    change va.toNat = _
    omega

end Exact

/-- What `user_mem_check` returns on a range: 0 if every address is accessible, and otherwise
`-E_FAULT` with the first one that is not; nothing else changes. -/
structure CheckExact (B : Boot) (e : Fin nenv) (va len perm : Word) (σ : State) (r : ℤ)
    (σ' : State) : Prop where
  zero_iff : r = 0 ↔
    ∀ a, InRange va len a → PageOk B σ (σ.envs e).envPgdir (perm ||| pteP) a
  fault : r ≠ 0 → r = -eFault ∧ IsLeast
    {a | InRange va len a ∧ ¬PageOk B σ (σ.envs e).envPgdir (perm ||| pteP) a}
    σ'.userMemCheckAddr
  unchanged : σ' = { σ with userMemCheckAddr := σ'.userMemCheckAddr }

/-- On a range that does not wrap `user_mem_check` is exact and reports the first bad
address. -/
theorem userMemCheck_exact (B : Boot) (e : Fin nenv) (va len perm : Word) (σ : State)
    (htab : TablesInMemory B σ (σ.envs e).envPgdir) (hlen : 0#32 < len)
    (hfit : va.toNat + len.toNat + 4095 < 2 ^ 32) :
    ∃ r σ', userMemCheck B e va len perm σ = .ok (r, σ') ∧ CheckExact B e va len perm σ r σ' := by
  have hpos : 0 < len.toNat := by
    rw [BitVec.lt_def] at hlen
    exact hlen
  obtain ⟨hrun, hall⟩ | ⟨k, hk, hrun, hbefore, hbad⟩ :=
    userMemCheckLoop_spec htab va (perm ||| pteP) (pagesChecked va len) (roundDown va pgsize)
  · -- all pages are accepted
    refine ⟨0, σ, hrun, ?_, fun hc => absurd rfl hc, rfl⟩
    refine iff_of_true rfl fun a ha => ?_
    obtain ⟨hk, hpage⟩ := ha.page hfit
    exact (pageOk_congr hpage).mpr (hall _ hk)
  · -- page `k` is the first one that is refused
    refine ⟨-eFault, _, hrun, ?_, fun _ => ⟨rfl, ?_⟩, rfl⟩
    all_goals
      obtain ⟨hpage, hend⟩ := checkedPage_toNat hfit hk
      have haddr := faultAt_addr (σ := σ) hfit hk
      set addr := (faultAt σ va
        (roundDown va pgsize + BitVec.ofNat 32 (k * 4096))).userMemCheckAddr with haddr_def
      -- the reported address is in the range and on the refused page
      have hmem : InRange va len addr ∧
          ¬PageOk B σ (σ.envs e).envPgdir (perm ||| pteP) addr := by
        refine ⟨⟨?_, ?_⟩, ?_⟩
        · rw [BitVec.le_def]
          omega
        · omega
        · have hsame : pgnum addr = pgnum (roundDown va pgsize + BitVec.ofNat 32 (k * 4096)) := by
            rw [pgnum_eq, pgnum_eq, hpage]
            omega
          rwa [pageOk_congr hsame]
    · exact iff_of_false (by decide) fun hall => hmem.2 (hall addr hmem.1)
    · refine ⟨hmem, ?_⟩
      rintro a ⟨ha, hnot⟩
      -- what comes before it is on pages that were accepted
      rw [BitVec.le_def]
      by_contra hlt
      have hle := BitVec.le_def.mp ha.1
      obtain ⟨-, hpage'⟩ := ha.page hfit
      exact hnot ((pageOk_congr hpage').mpr (hbefore _ (by omega)))

/-- The kernel's directory has one entry, at `UVPT`, and shows itself there. A range that begins
on that page and ends on the next one is refused. -/
theorem userMemCheck_exact_small : ∃ r σ',
    userMemCheck smallMachine 0 0xEF7BDFF0#32 0x20#32 pteU
      { smallMemory with envs := fun _ => { envPgdir := smallMachine.kernPgdir } } = .ok (r, σ') ∧
    CheckExact smallMachine 0 0xEF7BDFF0#32 0x20#32 pteU
      { smallMemory with envs := fun _ => { envPgdir := smallMachine.kernPgdir } } r σ' := by
  refine userMemCheck_exact smallMachine 0 _ _ _ _ ?_ (by decide) (by decide)
  intro i t π ht
  change entryOf (smallMemory.mem smallMachine.kernFrame i) = some (t, π) at ht
  rw [smallMemory_booted.kernDir] at ht
  by_cases hi : i = pdx uvpt
  · rw [hi, Function.update_self] at ht
    obtain ⟨-, hnum, -⟩ := entryOf_eq_some.mp ht
    rw [← hnum]
    decide
  · rw [Function.update_of_ne hi, entryOf_zero] at ht
    cases ht

end Jos
