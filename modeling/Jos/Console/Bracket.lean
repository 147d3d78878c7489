import Jos.Console.Debuginfo

/-!
# What `stab_binsearch` finds

The entries of one type, in the order of their addresses, are a `MarkedTable`, and the loop
of `stab_binsearch` halves it. Until it comes upon an entry whose address is exactly `addr`
it is the search of `Library/Halving.lean`; then it goes on with `addr + 1`, which changes
nothing as long as no entry at `addr + 1` is left in the region.
-/

namespace Jos

open Logged MarkedTable

/-! ### The table in memory -/

/-- Entry `i` of the table is `s`. -/
structure StabAt (mem : Memory) (t : UserStabData) (i : ℤ) (s : Stab) : Prop where
  strx : (Debug.nStrx mem t i).result = .ok s.nStrx
  type : (Debug.nType mem t i).result = .ok s.nType
  desc : (Debug.nDesc mem t i).result = .ok s.nDesc
  value : (Debug.nValue mem t i).result = .ok s.nValue

/-- The entries from `L` to `R` are `stabs`. -/
def StabsAt (mem : Memory) (t : UserStabData) (stabs : ℤ → Stab) (L R : ℤ) : Prop :=
  ∀ i, L ≤ i → i ≤ R → StabAt mem t i (stabs i)

/-- The entries of one type and their addresses. -/
def typed (stabs : ℤ → Stab) (type : Byte) : MarkedTable ℕ where
  marked i := (stabs i).nType = type
  value i := (stabs i).nValue.toNat

variable {mem : Memory} {t : UserStabData} {stabs : ℤ → Stab} {type : Byte} {L R : ℤ}

theorem typed_marked {i : ℤ} : (typed stabs type).marked i ↔ (stabs i).nType = type :=
  decide_eq_true_iff

theorem StabsAt.mono {L' R' : ℤ} (h : StabsAt mem t stabs L R) (hL : L ≤ L') (hR : R' ≤ R) :
    StabsAt mem t stabs L' R' := fun i hi hi' => h i (hL.trans hi) (hi'.trans hR)

/-- An `unsigned char` is compared as an `int`. -/
theorem setWidth_inj {b c : Byte} (h : b.setWidth 32 = c.setWidth 32) : b = c := by
  have hb := congrArg BitVec.toNat h
  rw [BitVec.toNat_setWidth, BitVec.toNat_setWidth] at hb
  exact BitVec.eq_of_toNat_eq (by omega)

theorem typedBy_setWidth (stabs : ℤ → Stab) (type : Byte) :
    typedBy stabs (type.setWidth 32) = typed stabs type := by
  have hmarked (i : ℤ) : decide ((stabs i).nType.setWidth 32 = type.setWidth 32) =
      decide ((stabs i).nType = type) := decide_eq_decide.mpr ⟨setWidth_inj, fun h => by rw [h]⟩
  simp only [typedBy, typed, hmarked]

/-- A table whose entries are there can be searched, if the `int`s of the search do not overflow. -/
theorem StabsAt.reads {int : ℤ → Debug ℤ} (h : StabsAt mem t stabs L R)
    (hint : ∀ x, StabReader.Computed L R x → int x = pure x) :
    (tableReader int mem t).Reads (fun i => .load (t.entry i) sizeofStab) stabs (fun _ => False)
      L R where
  type {i} hi hR := ⟨nType_log i, by
    rw [show ((tableReader int mem t).nType i).result = _ from (h i hi hR).type]
    exact endsIn_ok.mpr rfl⟩
  value {i} hi hR := ⟨nValue_log i, by
    rw [show ((tableReader int mem t).nValue i).result = _ from (h i hi hR).value]
    exact endsIn_ok.mpr rfl⟩
  int {x} hx := by
    rw [show (tableReader int mem t).int x = _ from hint x hx]
    exact ⟨rfl, endsIn_ok.mpr rfl⟩

/-! ### The loop -/

section Loop

variable {T : MarkedTable ℕ} {a : ℕ} {s s' : Binsearch}

/-- What holds as long as the search has not gone past an entry above `a`. -/
structure Tracks (T : MarkedTable ℕ) (a : ℕ) (L R : ℤ) (s : Binsearch) : Prop where
  splits : T.Splits a L R s.l s.r
  right : s.regionRight = s.r
  left_ge : L ≤ s.regionLeft
  left_le : s.regionLeft ≤ s.l
  left_le_end : s.regionLeft ≤ R
  left : s.regionLeft = L ∨ T.marked s.regionLeft ∧ T.value s.regionLeft ≤ a
  next : s.r = R ∨ s.r < R ∧ T.marked (s.r + 1) ∧ a < T.value (s.r + 1)
  found : s.anyMatches = true → ∃ i, L ≤ i ∧ i ≤ R ∧ T.marked i
  empty : s.anyMatches = false → s.regionLeft = L ∧ s.r = R ∧ ∀ i, L ≤ i → i < s.l → ¬T.marked i

namespace Tracks

theorem start (addr : Word) (h : L ≤ R) : Tracks T a L R ⟨L, R, false, L, R, addr⟩ where
  splits := .whole (by omega)
  right := rfl
  left_ge := le_rfl
  left_le := le_rfl
  left_le_end := h
  left := .inl rfl
  next := .inl rfl
  found h := by cases h
  empty _ := ⟨rfl, rfl, fun i hi hlt => absurd hi (by dsimp only at hlt; omega)⟩

theorem skip (h : Tracks T a L R s) (hle : s.l ≤ s.r) (hp : T.probe s.l s.r = none) :
    Tracks T a L R { s with l := (s.l + s.r).tdiv 2 + 1 } := by
  have hmid := tdiv_two_bounds hle
  have hleft := h.left_le
  refine { h with splits := h.splits.skip hle hp, left_le := by dsimp only; omega, empty := ?_ }
  intro hany
  obtain ⟨hl, hr, hnone⟩ := h.empty hany
  refine ⟨hl, hr, fun i hi hlt => ?_⟩
  by_cases hil : i < s.l
  · exact hnone i hi hil
  · exact probe_eq_none hle hp i (by omega) (by dsimp only at hlt; omega)

/-- An entry at most `a` moves the left end, to `l`, which is behind it or at it. -/
theorem low {m l : ℤ} (h : Tracks T a L R s) (hle : s.l ≤ s.r) (hp : T.probe s.l s.r = some m)
    (hv : T.value m ≤ a) (hml : m ≤ l) (hsplits : T.Splits a L R l s.r) (addr : Word) :
    Tracks T a L R ⟨l, s.r, true, m, s.regionRight, addr⟩ := by
  have hmid := tdiv_two_bounds hle
  obtain ⟨hm, hlow, hup, -⟩ := probe_eq_some hle hp
  have hstart := h.splits.start
  have hstop := h.splits.stop
  exact { h with
    splits := hsplits
    left_ge := by dsimp only; omega
    left_le := hml
    left_le_end := by dsimp only; omega
    left := .inr ⟨hm, hv⟩
    found := fun _ => ⟨m, by omega, by omega, hm⟩
    empty := fun hany => by cases hany }

theorem high {m : ℤ} (h : Tracks T a L R s) (hs : T.SortedOn L R) (hle : s.l ≤ s.r)
    (hp : T.probe s.l s.r = some m) (hv : a < T.value m) :
    Tracks T a L R { s with anyMatches := true, regionRight := m - 1, r := m - 1 } := by
  have hmid := tdiv_two_bounds hle
  obtain ⟨hm, hlow, hup, -⟩ := probe_eq_some hle hp
  have hstart := h.splits.start
  have hstop := h.splits.stop
  have hback : m - 1 + 1 = m := by omega
  exact { h with
    splits := h.splits.high hs hle hp hv
    right := rfl
    next := .inr ⟨by dsimp only; omega, by rw [hback]; exact hm, by rw [hback]; exact hv⟩
    found := fun _ => ⟨m, by omega, by omega, hm⟩
    empty := fun hany => by cases hany }

end Tracks

/-- The search has come upon an entry at `a` and then upon one at `a + 1`, which is at `k`. -/
def Overtakes (T : MarkedTable ℕ) (a : ℕ) (L R k : ℤ) : Prop :=
  ∃ m q q', T.meets a L R = some (m, q) ∧ T.meets (a + 1) m q = some (k, q')

/-- Where the search comes upon an entry at the last address, behind which `addr` is 0. -/
def WrapsAt (T : MarkedTable ℕ) (a : ℕ) (L R k : ℤ) : Prop :=
  a + 1 = 2 ^ 32 ∧ (∃ q, T.meets a L R = some (k, q)) ∨
    a + 1 < 2 ^ 32 ∧ ∃ j, Overtakes T a L R j ∧ j ≤ k ∧ (a + 2 = 2 ^ 32 → j = k)

/-- How far the search is. -/
inductive Phase (T : MarkedTable ℕ) (a : ℕ) (L R : ℤ) (s : Binsearch) : Prop
  /-- No entry at `a` so far. -/
  | plain : Tracks T a L R s → s.addr.toNat = a → T.meets a s.l s.r = T.meets a L R →
      Phase T a L R s
  /-- One at `a`, and `addr` is `a + 1` now. -/
  | met {m q : ℤ} : Tracks T a L R s → T.meets a L R = some (m, q) → s.addr.toNat = a + 1 →
      T.meets (a + 1) s.l s.r = T.meets (a + 1) m q → Phase T a L R s
  /-- One at `a + 1` as well: the left end is above `a`. -/
  | past {k : ℤ} : Overtakes T a L R k → a + 2 < 2 ^ 32 → s.anyMatches = true →
      s.regionRight = s.r → s.r ≤ R → L ≤ k → k ≤ s.regionLeft → s.regionLeft ≤ s.l →
      s.regionLeft ≤ s.r → T.marked s.regionLeft → a < T.value s.regionLeft →
      T.value s.regionLeft < s.addr.toNat → Phase T a L R s
  /-- One at the last address: `addr` is 0, and everything left is above it. -/
  | wrapped {k : ℤ} : WrapsAt T a L R k → s.anyMatches = true → s.regionRight = s.r →
      s.r ≤ R → L ≤ k → k ≤ R → s.regionLeft = k → s.l = k → k ≤ s.r + 1 → T.marked k →
      T.value k + 1 = 2 ^ 32 → s.addr.toNat = 0 → Phase T a L R s

/-- At the end of a search that has seen no entry of the type, there is none. -/
theorem Phase.empty (h : Phase T a L R s) (hend : s.r < s.l) (hany : s.anyMatches = false) :
    s.regionLeft = L ∧ ∀ i, L ≤ i → i ≤ R → ¬T.marked i := by
  have htracks : Tracks T a L R s := by
    cases h with
    | plain h => exact h
    | met h => exact h
    | past _ _ hany' => cases hany.symm.trans hany'
    | wrapped _ hany' => cases hany.symm.trans hany'
  obtain ⟨hl, hr, hnone⟩ := htracks.empty hany
  exact ⟨hl, fun i hi hiR => hnone i hi (by omega)⟩

theorem toNat_add_one {x : Word} (h : x.toNat + 1 < 2 ^ 32) :
    (x + 1#32).toNat = x.toNat + 1 := by
  rw [BitVec.toNat_add, BitVec.toNat_ofNat]
  omega

theorem toNat_add_one_of_last {x : Word} (h : x.toNat + 1 = 2 ^ 32) : (x + 1#32).toNat = 0 := by
  rw [BitVec.toNat_add, BitVec.toNat_ofNat]
  omega

/-- A round before any entry at `a`. -/
theorem Tracks.round_plain (hs : T.SortedOn L R) (h : Tracks T a L R s)
    (haddr : s.addr.toNat = a) (hmeets : T.meets a s.l s.r = T.meets a L R) (hle : s.l ≤ s.r)
    (hround : Round T s s') : Phase T a L R s' := by
  have hmid := tdiv_two_bounds hle
  have hsplits := h.splits
  cases hround with
  | skip hp => exact .plain (h.skip hle hp) haddr ((meets_skip hle hp).symm.trans hmeets)
  | @low m hp hlt =>
    obtain ⟨-, -, hup, -⟩ := probe_eq_some hle hp
    rw [haddr] at hlt
    exact .plain (h.low hle hp hlt.le (by omega) (hsplits.low hs hle hp hlt.le) s.addr) haddr
      ((meets_low hle hp hlt).symm.trans hmeets)
  | high hp hlt =>
    rw [haddr] at hlt
    exact .plain (h.high hs hle hp hlt) haddr ((meets_high hle hp hlt).symm.trans hmeets)
  | @exact m hp heq =>
    obtain ⟨hm, hlow, hup, -⟩ := probe_eq_some hle hp
    have hstart := hsplits.start
    have hstop := hsplits.stop
    have hlt := s.addr.isLt
    rw [haddr] at heq
    rw [meets_exact hle hp heq] at hmeets
    -- `addr` is incremented, and after the last address it is 0
    by_cases hlast : a + 1 = 2 ^ 32
    · exact .wrapped (.inl ⟨hlast, s.r, hmeets.symm⟩) rfl h.right hstop (by omega)
        (by omega) rfl rfl (by dsimp only; omega) hm (by omega) (toNat_add_one_of_last (by omega))
    · refine .met (h.low hle hp heq.le le_rfl (hsplits.lowAt hs hle hp heq.le) _) hmeets.symm ?_ rfl
      rw [toNat_add_one (by omega), haddr]

/-- A round after one: `addr` is `a + 1`, and an entry below that is at most `a`. -/
theorem Tracks.round_met {m₀ q₀ : ℤ} (hs : T.SortedOn L R) (h : Tracks T a L R s)
    (hfirst : T.meets a L R = some (m₀, q₀)) (haddr : s.addr.toNat = a + 1)
    (hmeets : T.meets (a + 1) s.l s.r = T.meets (a + 1) m₀ q₀) (hle : s.l ≤ s.r)
    (hround : Round T s s') : Phase T a L R s' := by
  have hmid := tdiv_two_bounds hle
  have hsplits := h.splits
  cases hround with
  | skip hp => exact .met (h.skip hle hp) hfirst haddr ((meets_skip hle hp).symm.trans hmeets)
  | @low m hp hlt =>
    obtain ⟨-, -, hup, -⟩ := probe_eq_some hle hp
    rw [haddr] at hlt
    have hv : T.value m ≤ a := by omega
    exact .met (h.low hle hp hv (by omega) (hsplits.low hs hle hp hv) s.addr) hfirst haddr
      ((meets_low hle hp hlt).symm.trans hmeets)
  | @high m hp hlt =>
    rw [haddr] at hlt
    have hv : a < T.value m := by omega
    exact .met (h.high hs hle hp hv) hfirst haddr ((meets_high hle hp hlt).symm.trans hmeets)
  | @exact m hp heq =>
    obtain ⟨hm, hlow, hup, -⟩ := probe_eq_some hle hp
    have hstart := hsplits.start
    have hstop := hsplits.stop
    -- the second entry that the search comes upon is above the address
    have hover : Overtakes T a L R m :=
      ⟨m₀, q₀, s.r, hfirst, hmeets.symm.trans (meets_exact hle hp (heq.trans haddr))⟩
    have hlt := s.addr.isLt
    by_cases hlast : a + 2 = 2 ^ 32
    · exact .wrapped (.inr ⟨by omega, m, hover, le_rfl, fun _ => rfl⟩) rfl h.right hstop
        (by omega) (by omega) rfl rfl (by dsimp only; omega) hm (by omega)
        (toNat_add_one_of_last (by omega))
    · refine .past hover (by omega) rfl h.right hstop (by omega) le_rfl le_rfl
        (by dsimp only; omega) hm (by dsimp only; omega) ?_
      rw [toNat_add_one (by omega)]
      dsimp only
      omega

/-- A round keeps what is known. -/
theorem Phase.round (hs : T.SortedOn L R) (h : Phase T a L R s) (hle : s.l ≤ s.r)
    (hround : Round T s s') : Phase T a L R s' := by
  have hmid := tdiv_two_bounds hle
  cases h with
  | plain htracks haddr hmeets => exact htracks.round_plain hs haddr hmeets hle hround
  | met htracks hfirst haddr hmeets => exact htracks.round_met hs hfirst haddr hmeets hle hround
  | @past k hover hbound hany hright hstop hLk hk hleft hleft' hmark hlow hhigh =>
    cases hround with
    | skip hp =>
      exact .past hover hbound hany hright hstop hLk hk (by dsimp only; omega) hleft' hmark hlow
        hhigh
    | @low m hp hlt =>
      obtain ⟨hm, hlm, hup, -⟩ := probe_eq_some hle hp
      have hv := hs s.regionLeft m (by omega) (by omega) (by omega) hmark hm
      exact .past hover hbound rfl hright hstop hLk (by dsimp only; omega) (by dsimp only; omega)
        (by dsimp only; omega) hm (by dsimp only; omega) hlt
    | @high m hp hlt =>
      obtain ⟨hm, hlm, hup, -⟩ := probe_eq_some hle hp
      -- the entry is above the left end, so it is behind it
      have hne : s.regionLeft ≠ m := by
        rintro heq
        rw [heq] at hhigh
        omega
      exact .past hover hbound rfl rfl (by dsimp only; omega) hLk hk hleft (by dsimp only; omega)
        hmark hlow hhigh
    | @exact m hp heq =>
      obtain ⟨hm, hlm, hup, -⟩ := probe_eq_some hle hp
      have hlt := s.addr.isLt
      by_cases hlast : s.addr.toNat + 1 = 2 ^ 32
      · exact .wrapped (k := m) (.inr ⟨by omega, k, hover, by omega, fun h => by omega⟩) rfl hright
          hstop (by omega) (by omega) rfl rfl (by dsimp only; omega) hm (by omega)
          (toNat_add_one_of_last hlast)
      · refine .past hover hbound rfl hright hstop hLk (by dsimp only; omega) le_rfl
          (by dsimp only; omega) hm (by dsimp only; omega) ?_
        rw [toNat_add_one (by omega)]
        dsimp only
        omega
  | @wrapped k hwraps hany hright hstop hLk hkR hleft hl hk hmark hv haddr =>
    -- the entry at `k` counts, so the lower half is not empty and nothing in it is below 0
    obtain ⟨m, hp, hkm⟩ : ∃ m, T.probe s.l s.r = some m ∧ k ≤ m :=
      last_ne_none hmark (by omega) (by omega)
    obtain ⟨hm, hlm, hup, -⟩ := probe_eq_some hle hp
    have hvm := hs k m hLk hkm (by omega) hmark hm
    cases hround with
    | skip hp' => cases hp.symm.trans hp'
    | low hp' hlt =>
      cases hp.symm.trans hp'
      omega
    | high hp' hlt =>
      cases hp.symm.trans hp'
      exact .wrapped hwraps rfl rfl (by dsimp only; omega) hLk hkR hleft hl (by dsimp only; omega)
        hmark hv haddr
    | exact hp' heq =>
      cases hp.symm.trans hp'
      omega

theorem Overtakes.unique {j k : ℤ} (hj : Overtakes T a L R j) (hk : Overtakes T a L R k) :
    j = k := by
  obtain ⟨m, q, _, hm, hj⟩ := hj
  obtain ⟨m', q', _, hm', hk⟩ := hk
  cases hm.symm.trans hm'
  cases hj.symm.trans hk
  rfl

end Loop

/-! ### The result -/

/-- The entries of one type at or below an address. -/
def atOrBelow (stabs : ℤ → Stab) (type : Byte) (addr : Word) (L R : ℤ) : Set ℤ :=
  {i | L ≤ i ∧ i ≤ R ∧ (stabs i).nType = type ∧ (stabs i).nValue ≤ addr}

/-- The entries of one type above it. -/
def above (stabs : ℤ → Stab) (type : Byte) (addr : Word) (L R : ℤ) : Set ℤ :=
  {i | L ≤ i ∧ i ≤ R ∧ (stabs i).nType = type ∧ addr < (stabs i).nValue}

/-- The entries of one type are in the order of their addresses. -/
def SortedStabs (stabs : ℤ → Stab) (type : Byte) (L R : ℤ) : Prop :=
  ∀ i j, L ≤ i → i ≤ j → j ≤ R → (stabs i).nType = type → (stabs j).nType = type →
    (stabs i).nValue ≤ (stabs j).nValue

theorem SortedStabs.typed (h : SortedStabs stabs type L R) : (typed stabs type).SortedOn L R := by
  intro i j hi hij hj hmi hmj
  exact BitVec.le_def.mp (h i j hi hij hj (typed_marked.mp hmi) (typed_marked.mp hmj))

/-- How the search can end. -/
inductive Outcome (stabs : ℤ → Stab) (type : Byte) (addr : Word) (L R left right : ℤ) : Prop
  /-- There is no entry of the type. -/
  | absent : (∀ i, L ≤ i → i ≤ R → (stabs i).nType ≠ type) → left = L → right = L - 1 →
      Outcome stabs type addr L R left right
  /-- The region is split at the address. -/
  | split : (∃ i, L ≤ i ∧ i ≤ R ∧ (stabs i).nType = type) → left ≤ right →
      (right = R ∧ above stabs type addr L R = ∅ ∨
        IsLeast (above stabs type addr L R) (right + 1)) →
      ((atOrBelow stabs type addr L R).Nonempty → IsGreatest (atOrBelow stabs type addr L R) left) →
      (∀ k, ¬Overtakes (typed stabs type) addr.toNat L R k) →
      (addr.toNat + 1 = 2 ^ 32 → (typed stabs type).meets addr.toNat L R = none) →
      Outcome stabs type addr L R left right
  /-- It is split further on. -/
  | past {k : ℤ} : Overtakes (typed stabs type) addr.toNat L R k → addr.toNat + 2 < 2 ^ 32 →
      left ≤ right → addr < (stabs left).nValue → Outcome stabs type addr L R left right
  /-- It is split before the entry at the last address. -/
  | wrapped {k : ℤ} : WrapsAt (typed stabs type) addr.toNat L R k → (stabs k).nType = type →
      (stabs k).nValue.toNat + 1 = 2 ^ 32 → L ≤ k → k ≤ R → left = k - 1 → right = k - 1 →
      Outcome stabs type addr L R left right

theorem mem_atOrBelow {addr : Word} {i : ℤ} :
    i ∈ atOrBelow stabs type addr L R ↔
      L ≤ i ∧ i ≤ R ∧ (typed stabs type).marked i ∧ (typed stabs type).value i ≤ addr.toNat := by
  rw [typed_marked]
  rfl

theorem mem_above {addr : Word} {i : ℤ} :
    i ∈ above stabs type addr L R ↔
      L ≤ i ∧ i ≤ R ∧ (typed stabs type).marked i ∧ addr.toNat < (typed stabs type).value i := by
  rw [typed_marked]
  rfl

/-- The scan at the end finds the last entry of the type. -/
theorem last_isGreatest {T : MarkedTable ℕ} {a : ℕ} {s : Binsearch} (h : Tracks T a L R s)
    (hend : s.r < s.l) (hne : ∃ i, L ≤ i ∧ i ≤ R ∧ T.marked i ∧ T.value i ≤ a) :
    IsGreatest {i | L ≤ i ∧ i ≤ R ∧ T.marked i ∧ T.value i ≤ a}
      ((T.last (s.r - s.regionLeft).toNat s.r).getD (s.r - (s.r - s.regionLeft).toNat)) := by
  have hregion := h.splits.region
  have hstop := h.splits.stop
  have hleft := h.left_ge
  have hsplits : T.Splits a L R (s.r + 1) s.r := by
    have hl : s.l = s.r + 1 := by omega
    exact hl ▸ h.splits
  -- what is at most `a` is at most at `s.r`, and not before the left end
  obtain ⟨j, hjL, hjR, hj, hjv⟩ := hne
  have hjr := (hsplits.value_le_iff hjL hjR hj).mp hjv
  have hleft_le : s.regionLeft ≤ s.r := by
    obtain heq | ⟨hmark, hv⟩ := h.left
    · omega
    · exact (hsplits.value_le_iff hleft h.left_le_end hmark).mp hv
  cases hlast : T.last (s.r - s.regionLeft).toNat s.r with
  | none =>
    have hnone := last_eq_none hlast
    have hend' : s.r - ((s.r - s.regionLeft).toNat : ℤ) = s.regionLeft := by omega
    have hmax : ∀ i, L ≤ i → i ≤ R → T.marked i → T.value i ≤ a → i ≤ s.regionLeft := by
      intro i hi hiR hmark hv
      by_contra hlt
      exact hnone i (by omega) ((hsplits.value_le_iff hi hiR hmark).mp hv) hmark
    have hmark : T.marked s.regionLeft ∧ T.value s.regionLeft ≤ a := by
      obtain heq | hmark := h.left
      · have hle := hmax j hjL hjR hj hjv
        obtain rfl : j = s.regionLeft := by omega
        exact ⟨hj, hjv⟩
      · exact hmark
    rw [Option.getD_none, hend']
    exact ⟨⟨hleft, h.left_le_end, hmark⟩, fun i ⟨hi, hiR, him, hv⟩ => hmax i hi hiR him hv⟩
  | some k =>
    obtain ⟨hk, hlow, hup, hbetween⟩ := last_eq_some hlast
    rw [Option.getD_some]
    refine ⟨⟨by omega, by omega, hk, (hsplits.value_le_iff (by omega) (by omega) hk).mpr hup⟩, ?_⟩
    rintro i ⟨hi, hiR, him, hv⟩
    by_contra hlt
    exact hbetween i (by omega) ((hsplits.value_le_iff hi hiR him).mp hv) him

/-- Where the scan at the end can stop. -/
theorem last_getD_bounds (T : MarkedTable ℕ) (r l : ℤ) :
    (T.last (r - l).toNat r).getD (r - (r - l).toNat) ≤ r ∧
      (l ≤ r → l ≤ (T.last (r - l).toNat r).getD (r - (r - l).toNat)) ∧
      (l ≤ r → T.marked l → T.marked ((T.last (r - l).toNat r).getD (r - (r - l).toNat))) := by
  cases hlast : T.last (r - l).toNat r with
  | none =>
    rw [Option.getD_none]
    refine ⟨by omega, fun hle => by omega, fun hle hmark => ?_⟩
    have hend : r - ((r - l).toNat : ℤ) = l := by omega
    rw [hend]
    exact hmark
  | some k =>
    obtain ⟨hk, hlow, hup, -⟩ := last_eq_some hlast
    exact ⟨hup, fun hle => by rw [Option.getD_some]; omega, fun _ _ => hk⟩

/-- A search that has not gone past the address splits the region there. -/
theorem Tracks.outcome {addr : Word} {s : Binsearch}
    (h : Tracks (typed stabs type) addr.toNat L R s) (hend : s.r < s.l)
    (hany : s.anyMatches = true) (hover : ∀ k, ¬Overtakes (typed stabs type) addr.toNat L R k)
    (hwrap : addr.toNat + 1 = 2 ^ 32 → (typed stabs type).meets addr.toNat L R = none) :
    Outcome stabs type addr L R (((typed stabs type).last (s.r - s.regionLeft).toNat s.r).getD
      (s.r - (s.r - s.regionLeft).toNat)) s.r := by
  have hregion := h.splits.region
  have hsplits : (typed stabs type).Splits addr.toNat L R (s.r + 1) s.r := by
    have hl : s.l = s.r + 1 := by omega
    exact hl ▸ h.splits
  obtain ⟨i, hi, hiR, hmark⟩ := h.found hany
  refine .split ⟨i, hi, hiR, typed_marked.mp hmark⟩ (last_getD_bounds _ _ _).1 ?_ ?_ hover hwrap
  · -- the right end is the last entry of the region, or the next one is above the address
    obtain hr | ⟨hr, hnext, hv⟩ := h.next
    · refine .inl ⟨hr, Set.eq_empty_of_forall_notMem fun i hi => ?_⟩
      obtain ⟨hi, hiR, hm, hv⟩ := mem_above.mp hi
      have := (hsplits.value_le_iff hi hiR hm).mpr (by omega)
      omega
    · have hstart := h.splits.start
      refine .inr ⟨mem_above.mpr ⟨by omega, by omega, hnext, hv⟩, fun i hi => ?_⟩
      obtain ⟨hi, hiR, hm, hv⟩ := mem_above.mp hi
      have := mt (hsplits.value_le_iff hi hiR hm).mpr (by omega)
      omega
  · rintro ⟨i, hi⟩
    have hgreatest := last_isGreatest h hend ⟨i, mem_atOrBelow.mp hi⟩
    exact ⟨mem_atOrBelow.mpr hgreatest.1, fun j hj => hgreatest.2 (mem_atOrBelow.mp hj)⟩

/-- The last round leaves the region split. -/
theorem Phase.outcome {addr : Word} {s : Binsearch} (hs : (typed stabs type).SortedOn L R)
    (h : Phase (typed stabs type) addr.toNat L R s) (hend : s.r < s.l)
    (hany : s.anyMatches = true) :
    Outcome stabs type addr L R (((typed stabs type).last (s.regionRight - s.regionLeft).toNat
      s.regionRight).getD (s.regionRight - (s.regionRight - s.regionLeft).toNat))
      s.regionRight := by
  cases h with
  | plain htracks haddr hmeets =>
    rw [meets_of_lt hend] at hmeets
    rw [htracks.right]
    refine htracks.outcome hend hany ?_ fun _ => hmeets.symm
    rintro k ⟨m, q, q', hm, -⟩
    cases hm.symm.trans hmeets.symm
  | met htracks hfirst haddr hmeets =>
    rw [meets_of_lt hend] at hmeets
    rw [htracks.right]
    have hlt := s.addr.isLt
    -- the increment has not wrapped, and nothing was met behind it
    refine htracks.outcome hend hany ?_ fun _ => by omega
    rintro k ⟨m, q, q', hm, hk⟩
    cases hm.symm.trans hfirst
    cases hk.symm.trans hmeets.symm
  | @past k hover hbound hany hright hstop hLk hk hleft hleft' hmark hlow hhigh =>
    rw [hright]
    obtain ⟨hup, hge, hmarked⟩ := last_getD_bounds (typed stabs type) s.r s.regionLeft
    refine .past hover hbound hup (BitVec.lt_def.mpr (hlow.trans_le ?_))
    exact hs _ _ (hLk.trans hk) (hge hleft') (hup.trans hstop) hmark (hmarked hleft' hmark)
  | @wrapped k hwraps hany hright hstop hLk hkR hleft hl hk hmark hv haddr =>
    obtain ⟨hr, hnil⟩ : s.regionRight = k - 1 ∧ (k - 1 - k).toNat = 0 := by omega
    rw [hleft, hr, hnil]
    exact .wrapped hwraps (typed_marked.mp hmark) hv hLk hkR (sub_zero _) rfl

/-- `stab_binsearch` returns, and in one of these ways. -/
theorem searchTable_outcome {int : ℤ → Debug ℤ} (h : StabsAt mem t stabs L R)
    (hint : ∀ x, StabReader.Computed L R x → int x = pure x) (hLR : L ≤ R)
    (hs : SortedStabs stabs type L R) (addr : Word) :
    ∃ left right, (searchTable int mem t L R type addr).result = .ok (left, right) ∧
      Outcome stabs type addr L R left right := by
  obtain ⟨log, b, hrun, -, s, -, hphase, hend, rfl⟩ :=
    (StabReader.settles_stabBinsearch (I := Phase (typed stabs type) addr.toNat L R) (h.reads hint)
      (type.setWidth 32) addr
      (fun s s' hI hle hround => hI.round hs.typed hle (typedBy_setWidth stabs type ▸ hround))
      (.plain (Tracks.start addr hLR) rfl rfl)).value
  have hresult := congrArg Logged.result (hrun _ le_rfl)
  cases hany : s.anyMatches with
  | false =>
    obtain ⟨hl, hnone⟩ := hphase.empty hend hany
    rw [hany, if_neg Bool.false_ne_true, hl] at hresult
    exact ⟨L, L - 1, hresult,
      .absent (fun i hi hiR => mt typed_marked.mpr (hnone i hi hiR)) rfl rfl⟩
  | true =>
    rw [hany, if_pos rfl, typedBy_setWidth] at hresult
    exact ⟨_, _, hresult, hphase.outcome hs.typed hend hany⟩

/-- The integers of the search, when they may be of any size. -/
theorem stabBinsearch_outcome (h : StabsAt mem t stabs L R) (hLR : L ≤ R)
    (hs : SortedStabs stabs type L R) (addr : Word) :
    ∃ left right, (stabBinsearch mem t L R type addr).result = .ok (left, right) ∧
      Outcome stabs type addr L R left right :=
  searchTable_outcome h (fun _ _ => rfl) hLR hs addr

theorem eq_last_iff {x : Word} : x = 0xFFFFFFFF#32 ↔ x.toNat + 1 = 2 ^ 32 := by
  rw [← BitVec.toNat_inj, BitVec.toNat_ofNat]
  omega

/-- The two entries the search comes upon: one at the address, and one just behind it. -/
theorem Overtakes.entries {addr : Word} {k : ℤ}
    (h : Overtakes (typed stabs type) addr.toNat L R k) :
    ∃ m, L ≤ m ∧ m < k ∧ k ≤ R ∧ (stabs m).nType = type ∧ (stabs m).nValue = addr ∧
      (stabs k).nType = type ∧ (stabs k).nValue.toNat = addr.toNat + 1 := by
  obtain ⟨m, q, q', hm, hk⟩ := h
  obtain ⟨hmark, hv, hLm, -, hqR⟩ := meets_eq_some hm
  obtain ⟨hmark', hv', hmk, hkq, hq⟩ := meets_eq_some hk
  have hne : m ≠ k := by
    rintro rfl
    omega
  exact ⟨m, hLm, by omega, by omega, typed_marked.mp hmark, BitVec.eq_of_toNat_eq hv,
    typed_marked.mp hmark', hv'⟩

/-- A search that comes upon nothing just behind the address brackets the address. -/
theorem searchTable_split {int : ℤ → Debug ℤ} (h : StabsAt mem t stabs L R)
    (hint : ∀ x, StabReader.Computed L R x → int x = pure x) (hLR : L ≤ R) {addr : Word}
    (hs : SortedStabs stabs type L R) (hsome : (atOrBelow stabs type addr L R).Nonempty)
    (hover : ∀ k, ¬Overtakes (typed stabs type) addr.toNat L R k)
    (hlast : addr = 0xFFFFFFFF#32 → ∀ i, L ≤ i → i ≤ R → (stabs i).nType = type →
      (stabs i).nValue ≠ addr) :
    ∃ left right, (searchTable int mem t L R type addr).result = .ok (left, right) ∧
      IsGreatest (atOrBelow stabs type addr L R) left ∧
      (IsLeast (above stabs type addr L R) (right + 1) ∨
        above stabs type addr L R = ∅ ∧ right = R) := by
  obtain ⟨left, right, hok, hout⟩ := searchTable_outcome h hint hLR hs addr
  refine ⟨left, right, hok, ?_⟩
  cases hout with
  | absent hnone =>
    obtain ⟨i, hi, hiR, htype, -⟩ := hsome
    exact absurd htype (hnone i hi hiR)
  | split _ _ hright hleft => exact ⟨hleft hsome, hright.symm.imp id And.symm⟩
  | past hk => exact absurd hk (hover _)
  | wrapped hwraps =>
    -- an entry at the last address is excluded, and so is one behind the address
    obtain ⟨heq, q, hmeets⟩ | ⟨-, j, hj, -⟩ := hwraps
    · obtain ⟨hmark, hv, hLk, hkq, hqR⟩ := meets_eq_some hmeets
      exact absurd (BitVec.eq_of_toNat_eq hv) (hlast (eq_last_iff.mpr heq) _ hLk (hkq.trans hqR)
        (typed_marked.mp hmark))
    · exact absurd hj (hover j)

/-- `stab_binsearch` brackets the address exactly, unless an entry just behind it may be in
the way. -/
theorem stabBinsearch_brackets (h : StabsAt mem t stabs L R) (hLR : L ≤ R) {addr : Word}
    (haddr : addr < 0xFFFFFFFF#32) (hs : SortedStabs stabs type L R)
    (hsome : (atOrBelow stabs type addr L R).Nonempty)
    (hnext : ∀ i, L ≤ i → i ≤ R → (stabs i).nType = type → (stabs i).nValue ≠ addr + 1#32) :
    ∃ left right, (stabBinsearch mem t L R type addr).result = .ok (left, right) ∧
      IsGreatest (atOrBelow stabs type addr L R) left ∧
      (IsLeast (above stabs type addr L R) (right + 1) ∨
        above stabs type addr L R = ∅ ∧ right = R) := by
  have hne : addr ≠ 0xFFFFFFFF#32 := by
    rintro rfl
    exact BitVec.lt_irrefl _ haddr
  refine searchTable_split h (fun _ _ => rfl) hLR hs hsome (fun k hk => ?_)
    fun heq => absurd heq hne
  obtain ⟨m, hLm, hmk, hkR, -, -, htype, hv⟩ := hk.entries
  refine hnext k (by omega) hkR htype (BitVec.eq_of_toNat_eq ?_)
  have hbound := (stabs k).nValue.isLt
  rw [toNat_add_one (by omega), hv]

/-- The bytes of a `struct Stab`. -/
def Stab.bytes (s : Stab) : List Byte :=
  [byteOf s.nStrx 0, byteOf s.nStrx 1, byteOf s.nStrx 2, byteOf s.nStrx 3, s.nType, 0#8,
    s.nDesc.setWidth 8, (s.nDesc >>> 8).setWidth 8,
    byteOf s.nValue 0, byteOf s.nValue 1, byteOf s.nValue 2, byteOf s.nValue 3]

/-- Memory with the bytes `b` at `base`. -/
def tableMemory (base : Word) (b : List Byte) : Memory := fun a => b[(a - base).toNat]?

/-- Two functions with the lines of the first, and one more behind. -/
def fourStabs (i : ℤ) : Stab :=
  [⟨1#32, nFun, 0#16, 0xF0100000#32⟩, ⟨0#32, nSline, 5#16, 0#32⟩, ⟨0#32, nSline, 6#16, 4#32⟩,
    ⟨9#32, nFun, 0#16, 0xF0100040#32⟩].getD i.toNat ⟨0#32, 0#8, 0#16, 0#32⟩

/-- Their bytes. -/
def fourStabBytes : List Byte :=
  (fourStabs 0).bytes ++ (fourStabs 1).bytes ++ (fourStabs 2).bytes ++ (fourStabs 3).bytes

/-- The table at `0xF0110000`. -/
def fourStabData : UserStabData := ⟨0xF0110000#32, 0xF0110030#32, 0xF0110040#32, 0xF0110050#32⟩

theorem fourStabs_at :
    StabsAt (tableMemory 0xF0110000#32 fourStabBytes) fourStabData fourStabs 0 3 := by
  intro i hi hi3
  obtain rfl | rfl | rfl | rfl : i = 0 ∨ i = 1 ∨ i = 2 ∨ i = 3 := by omega
  all_goals exact ⟨rfl, rfl, rfl, rfl⟩

theorem fourStabs_sorted : SortedStabs fourStabs nFun 0 3 := by
  intro i j hi hij hj
  obtain rfl | rfl | rfl | rfl : i = 0 ∨ i = 1 ∨ i = 2 ∨ i = 3 := by omega
  all_goals
    obtain rfl | rfl | rfl | rfl : j = 0 ∨ j = 1 ∨ j = 2 ∨ j = 3 := by omega
    all_goals revert hij; decide

theorem stabBinsearch_brackets_fourStabs :
    StabsAt (tableMemory 0xF0110000#32 fourStabBytes) fourStabData fourStabs 0 3 ∧
      (atOrBelow fourStabs nFun 0xF0100005#32 0 3).Nonempty ∧
      ∃ left right, (stabBinsearch (tableMemory 0xF0110000#32 fourStabBytes) fourStabData 0 3 nFun
        0xF0100005#32).result = .ok (left, right) ∧
        IsGreatest (atOrBelow fourStabs nFun 0xF0100005#32 0 3) left ∧
        (IsLeast (above fourStabs nFun 0xF0100005#32 0 3) (right + 1) ∨
          above fourStabs nFun 0xF0100005#32 0 3 = ∅ ∧ right = 3) := by
  have hsome : (atOrBelow fourStabs nFun 0xF0100005#32 0 3).Nonempty :=
    ⟨0, by decide, by decide, by decide, by decide⟩
  refine ⟨fourStabs_at, hsome, stabBinsearch_brackets fourStabs_at (by decide) (by decide)
    fourStabs_sorted hsome fun i hi hi3 => ?_⟩
  obtain rfl | rfl | rfl | rfl : i = 0 ∨ i = 1 ∨ i = 2 ∨ i = 3 := by omega
  all_goals decide

/-- What the callers of `stab_binsearch` assume of the bounds it returns. -/
def Contains (stabs : ℤ → Stab) (type : Byte) (addr : Word) (L R left right : ℤ) : Prop :=
  (left ≤ right ↔ (atOrBelow stabs type addr L R).Nonempty) ∧
    (left ≤ right → L ≤ left ∧ (stabs left).nType = type ∧ (stabs left).nValue ≤ addr)

/-- The inputs for which they are right. Either there is no entry of the type, or there is one
at or below the address and the search does not go past the address: it does not come upon
an entry at `addr` and then upon one at `addr + 1`. Where the address behind the entry is 0
the search ends just before it, which is right if the type happens to be right there. -/
def Findable (stabs : ℤ → Stab) (type : Byte) (addr : Word) (L R : ℤ) : Prop :=
  (∀ i, L ≤ i → i ≤ R → (stabs i).nType ≠ type) ∨
    (atOrBelow stabs type addr L R).Nonempty ∧
      (∀ k, Overtakes (typed stabs type) addr.toNat L R k →
        addr = 0xFFFFFFFE#32 ∧ (stabs (k - 1)).nType = type ∧ (stabs (k - 1)).nValue ≤ addr) ∧
      (addr = 0xFFFFFFFF#32 → ∀ m q, (typed stabs type).meets addr.toNat L R = some (m, q) →
        L < m ∧ (stabs (m - 1)).nType = type)

theorem eq_last_but_one_iff {x : Word} : x = 0xFFFFFFFE#32 ↔ x.toNat + 2 = 2 ^ 32 := by
  rw [← BitVec.toNat_inj, BitVec.toNat_ofNat]
  omega

/-- A search for the last address ends before the entry it has come upon. -/
theorem contains_iff_of_last {addr : Word} {k q : ℤ} (hlast : addr.toNat + 1 = 2 ^ 32)
    (hmeets : (typed stabs type).meets addr.toNat L R = some (k, q))
    (htype : (stabs k).nType = type) (hLk : L ≤ k) (hkR : k ≤ R) :
    Contains stabs type addr L R (k - 1) (k - 1) ↔ Findable stabs type addr L R := by
  have hbelow (i : ℤ) : (stabs i).nValue ≤ addr := by
    have hlt := (stabs i).nValue.isLt
    exact BitVec.le_def.mpr (by omega)
  have hsome : (atOrBelow stabs type addr L R).Nonempty := ⟨k, hLk, hkR, htype, hbelow k⟩
  -- there is no address behind it that could be overtaken
  have hnot : ∀ i, ¬Overtakes (typed stabs type) addr.toNat L R i := by
    rintro i ⟨m, q, q', -, hi⟩
    have hlt := (stabs i).nValue.isLt
    have hv := (meets_eq_some hi).2.1
    simp only [typed] at hv
    omega
  constructor
  · rintro ⟨-, hcontains⟩
    obtain ⟨hL, htype', -⟩ := hcontains le_rfl
    refine .inr ⟨hsome, fun i hi => absurd hi (hnot i), fun _ m q hm => ?_⟩
    cases hm.symm.trans hmeets
    exact ⟨by omega, htype'⟩
  · rintro (hnone | ⟨-, -, hwrap⟩)
    · exact absurd htype (hnone k hLk hkR)
    · obtain ⟨hL, htype'⟩ := hwrap (eq_last_iff.mpr hlast) k q hmeets
      exact ⟨iff_of_true le_rfl hsome, fun _ => ⟨by omega, htype', hbelow _⟩⟩

/-- So does one that has gone past an entry at `addr` and come upon the last address later. -/
theorem contains_iff_of_overtakes {addr : Word} {j k : ℤ} (hs : SortedStabs stabs type L R)
    (hj : Overtakes (typed stabs type) addr.toNat L R j) (hjk : j ≤ k)
    (hjlast : addr.toNat + 2 = 2 ^ 32 → j = k) (htype : (stabs k).nType = type)
    (hv : (stabs k).nValue.toNat + 1 = 2 ^ 32) (hLk : L ≤ k) (hkR : k ≤ R) :
    Contains stabs type addr L R (k - 1) (k - 1) ↔ Findable stabs type addr L R := by
  obtain ⟨m, hLm, hmj, hjR, hmtype, hmv, hjtype, hjv⟩ := hj.entries
  have hsome : (atOrBelow stabs type addr L R).Nonempty :=
    ⟨m, hLm, by omega, hmtype, BitVec.le_def.mpr (by rw [hmv])⟩
  constructor
  · rintro ⟨-, hcontains⟩
    obtain ⟨hL, htype', hle⟩ := hcontains le_rfl
    -- otherwise the entry before it is above `addr` already
    have hbut : addr.toNat + 2 = 2 ^ 32 := by
      by_contra hne
      have hjk' : j ≠ k := by
        rintro rfl
        omega
      have hsort := BitVec.le_def.mp (hs j (k - 1) (by omega) (by omega) (by omega) hjtype htype')
      have := BitVec.le_def.mp hle
      omega
    refine .inr ⟨hsome, fun i hi => ?_, fun heq => ?_⟩
    · obtain rfl := hi.unique hj
      obtain rfl := hjlast hbut
      exact ⟨eq_last_but_one_iff.mpr hbut, htype', hle⟩
    · have := eq_last_iff.mp heq
      omega
  · rintro (hnone | ⟨-, hover, -⟩)
    · exact absurd htype (hnone k hLk hkR)
    · obtain ⟨hbut, htype', hle⟩ := hover j hj
      obtain rfl := hjlast (eq_last_but_one_iff.mp hbut)
      exact ⟨iff_of_true le_rfl hsome, fun _ => ⟨by omega, htype', hle⟩⟩

/-- A search that ends before the entry at the last address. -/
theorem WrapsAt.contains_iff {addr : Word} {k : ℤ} (hs : SortedStabs stabs type L R)
    (h : WrapsAt (typed stabs type) addr.toNat L R k) (htype : (stabs k).nType = type)
    (hv : (stabs k).nValue.toNat + 1 = 2 ^ 32) (hLk : L ≤ k) (hkR : k ≤ R) :
    Contains stabs type addr L R (k - 1) (k - 1) ↔ Findable stabs type addr L R := by
  obtain ⟨hlast, q, hmeets⟩ | ⟨hlast, j, hj, hjk, hjlast⟩ := h
  · exact contains_iff_of_last hlast hmeets htype hLk hkR
  · exact contains_iff_of_overtakes hs hj hjk hjlast htype hv hLk hkR

/-- `stab_binsearch` reports a stab that contains the address, and says that there is none
when there is none, exactly for the inputs of `Findable`. -/
theorem stabBinsearch_contains_iff (h : StabsAt mem t stabs L R) (hLR : L ≤ R)
    (hs : SortedStabs stabs type L R) (addr : Word) :
    (∃ left right, (stabBinsearch mem t L R type addr).result = .ok (left, right) ∧
      Contains stabs type addr L R left right) ↔ Findable stabs type addr L R := by
  obtain ⟨left, right, hok, hout⟩ := stabBinsearch_outcome h hLR hs addr
  have hresult : (∃ left right, (stabBinsearch mem t L R type addr).result = .ok (left, right) ∧
      Contains stabs type addr L R left right) ↔ Contains stabs type addr L R left right := by
    constructor
    · rintro ⟨left', right', hok', hc⟩
      cases hok.symm.trans hok'
      exact hc
    · exact fun hc => ⟨left, right, hok, hc⟩
  rw [hresult]
  cases hout with
  | absent hnone hl hr =>
    have hempty : ¬(atOrBelow stabs type addr L R).Nonempty := by
      rintro ⟨i, hi, hiR, htype, -⟩
      exact hnone i hi hiR htype
    exact iff_of_true ⟨iff_of_false (by omega) hempty, fun hle => by omega⟩ (.inl hnone)
  | split hex hle hright hleft hover hwrap =>
    obtain ⟨i, hi, hiR, htype⟩ := hex
    constructor
    · rintro ⟨hiff, -⟩
      refine .inr ⟨hiff.mp hle, fun k hk => absurd hk (hover k), fun heq m q hm => ?_⟩
      cases hm.symm.trans (hwrap (eq_last_iff.mp heq))
    · rintro (hnone | ⟨hsome, -⟩)
      · exact absurd htype (hnone i hi hiR)
      · obtain ⟨hL, -, hltype, hlv⟩ := (hleft hsome).1
        exact ⟨iff_of_true hle hsome, fun _ => ⟨hL, hltype, hlv⟩⟩
  | past hk hbound hle hv =>
    -- the left end is above the address
    refine iff_of_false (fun ⟨_, hc⟩ => ?_) ?_
    · exact absurd (hc hle).2.2 (BitVec.not_le.mpr hv)
    · rintro (hnone | ⟨-, hover, -⟩)
      · obtain ⟨m, hLm, hmk, hkR, hmtype, -⟩ := hk.entries
        exact hnone m hLm (by omega) hmtype
      · have := eq_last_but_one_iff.mp (hover _ hk).1
        omega
  | wrapped hwraps htype hv hLk hkR hl hr =>
    rw [hl, hr]
    exact hwraps.contains_iff hs htype hv hLk hkR

/-- Below the first function `stab_binsearch` reports the entry before the table, and not
that there is none. -/
theorem stabBinsearch_below_first :
    StabsAt (tableMemory 0xF0110000#32 fourStabBytes) fourStabData fourStabs 0 3 ∧
      SortedStabs fourStabs nFun 0 3 ∧
      ¬∃ left right, (stabBinsearch (tableMemory 0xF0110000#32 fourStabBytes) fourStabData 0 3 nFun
        0xF00FFFFF#32).result = .ok (left, right) ∧
        Contains fourStabs nFun 0xF00FFFFF#32 0 3 left right := by
  refine ⟨fourStabs_at, fourStabs_sorted, ?_⟩
  rintro ⟨left, right, hok, -, hcontains⟩
  have hresult : (stabBinsearch (tableMemory 0xF0110000#32 fourStabBytes) fourStabData 0 3 nFun
      0xF00FFFFF#32).result = .ok (-1, -1) := rfl
  cases hresult.symm.trans hok
  exact absurd (hcontains le_rfl).1 (by decide)

theorem stabBinsearch_contains_fourStabs :
    StabsAt (tableMemory 0xF0110000#32 fourStabBytes) fourStabData fourStabs 0 3 ∧
      SortedStabs fourStabs nFun 0 3 ∧
      ∃ left right, (stabBinsearch (tableMemory 0xF0110000#32 fourStabBytes) fourStabData 0 3 nFun
        0xF0100005#32).result = .ok (left, right) ∧
        Contains fourStabs nFun 0xF0100005#32 0 3 left right := by
  refine ⟨fourStabs_at, fourStabs_sorted, (stabBinsearch_contains_iff fourStabs_at (by decide)
    fourStabs_sorted 0xF0100005#32).mpr (.inr ⟨?_, fun k hk => ?_, fun h => absurd h (by decide)⟩)⟩
  · exact ⟨0, by decide, by decide, by decide, by decide⟩
  · -- no function begins at the address
    obtain ⟨m, hm, hmk, hk3, -, hv, -⟩ := hk.entries
    obtain rfl | rfl | rfl : m = 0 ∨ m = 1 ∨ m = 2 := by omega
    all_goals exact absurd hv (by decide)

end Jos
